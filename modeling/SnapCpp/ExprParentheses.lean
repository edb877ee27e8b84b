import SnapCpp.ExprExecute

/-!
Parentheses around a part of an expression. A program has the meaning of its expression unless a
list in parentheses is an operand of an operator that stands in parentheses itself, or a parameter
of a function: then the items of the list become operands or parameters of their own.
-/
namespace SnapCpp.Expr

open SnapCpp.Parser (Token)

variable {V E F : Type} (ops : Operations V E F)

section Nodes

variable {n : ExprNode} {children : List ExprNode} {e l : Expression}

inductive Filled : ExprNode → Prop
  | list {children : List ExprNode} : 2 ≤ children.length → (∀ child ∈ children, Filled child) →
      Filled (.node .list children)
  | other {n : ExprNode} : ¬ n.IsList → Filled n

theorem Filled.counted (h : Filled n) : Counted n := by
  induction h with
  | list hlength _ ih =>
    have hle := length_le_levelChildren ih
    unfold Counted
    rw [leveled]
    omega
  | other hnot =>
    unfold Counted
    rw [leveled_of_not_isList hnot]
    exact ⟨le_refl 1, fun h => absurd h hnot⟩

theorem filled_levelChild (h : Filled n) : Filled (levelChild n) := by
  cases h with
  | @list children hlength hchildren =>
    have hle := length_le_levelChildren fun c hc => (hchildren c hc).counted
    exact Filled.list (le_trans hlength hle) fun child hchild =>
      Filled.other (not_isList_of_mem_levelChildren children child hchild)
  | other hnot =>
    refine Filled.other ?_
    rw [ExprNode.IsList, type_levelChild]
    exact hnot

theorem filled_node (he : e.Parses) : Filled e.node := by
  have hother : ∀ {type : NodeType} {children : List ExprNode}, type ≠ .list →
      Filled (.node type children) := fun hne => Filled.other hne
  induction e with
  | unary op e ih =>
    cases op with
    | identity => exact ih he.1
    | _ => exact hother (by simp)
  | tildeEqual l r => exact absurd he id
  | assignment l e =>
    obtain ⟨⟨name, rfl⟩, -⟩ := he
    exact hother (by simp)
  | comma l e ihl ihe =>
    refine Filled.list (le_refl 2) fun child hchild => ?_
    simp only [List.mem_cons, List.not_mem_nil, or_false] at hchild
    rcases hchild with rfl | rfl
    · exact ihl he.1
    · exact ihe he.2.1
  | paren l ih =>
    exact filled_levelChild (ih he)
  | _ => exact hother (by simp)

def executeLast : List ExprNode → V → Run V E F V
  | [], result => return result
  | child :: rest, _ => do executeLast rest (← execute ops child ops.undefined)

theorem execute_of_ne {type : NodeType} {result : V} (h : type ≠ .conditional) :
    execute ops (.node type children) result =
      (do operate ops type result (← executeAll ops children)) := by
  cases type <;> first | rfl | exact absurd rfl h

theorem executeAll_append (xs ys : List ExprNode) :
    executeAll ops (xs ++ ys) = (do
      let values ← executeAll ops xs
      return values ++ (← executeAll ops ys)) := by
  induction xs with
  | nil => simp [executeAll]
  | cons x xs ih => simp [executeAll, ih]

theorem executeLast_append (xs ys : List ExprNode) (result : V) :
    executeLast ops (xs ++ ys) result = (do executeLast ops ys (← executeLast ops xs result)) := by
  induction xs generalizing result with
  | nil => simp [executeLast]
  | cons x xs ih => simp [executeLast, ih]

theorem execute_list (result : V) :
    execute ops (.node .list children) result = executeLast ops children result := by
  rw [execute_of_ne ops (by simp)]
  change (do return ((← executeAll ops children).getLast?.getD result)) = _
  induction children generalizing result with
  | nil => simp [executeAll, executeLast]
  | cons child rest ih => simp [executeAll, executeLast, List.getLast?_cons, ← ih]

theorem executeLast_levelChildren (h : ∀ child ∈ children, ∀ result,
    executeLast ops (leveled child) result = execute ops child ops.undefined) (result : V) :
    executeLast ops (levelChildren children) result = executeLast ops children result := by
  induction children generalizing result with
  | nil => rfl
  | cons child rest ih =>
    have hrest := ih (List.forall_mem_cons.mp h).2
    rw [levelChildren, executeLast_append, h child List.mem_cons_self]
    simp only [executeLast, hrest]

theorem execute_list_of_length (h : 2 ≤ children.length) (result : V) :
    execute ops (.node .list children) result =
      execute ops (.node .list children) ops.undefined := by
  rw [execute_list, execute_list]
  cases children with
  | nil => exact absurd h (by simp)
  | cons child rest => rfl

theorem executeLast_leveled (h : Filled n) (result : V) :
    executeLast ops (leveled n) result = execute ops n ops.undefined := by
  induction h generalizing result with
  | @list children hlength _ ih =>
    rw [leveled, executeLast_levelChildren ops ih, ← execute_list]
    exact execute_list_of_length ops hlength result
  | other hnot =>
    rw [leveled_of_not_isList hnot]
    simp [executeLast]

theorem execute_levelChild_of_filled (h : Filled n) (hlist : n.IsList) (result : V) :
    execute ops (levelChild n) result = execute ops n result := by
  cases h with
  | list hlength hchildren =>
    rw [levelChild, execute_list, execute_list]
    exact executeLast_levelChildren ops
      (fun c hc => executeLast_leveled ops (hchildren c hc)) result
  | other hnot => exact absurd hlist hnot

end Nodes

section Meaning

namespace Expression

def PlainAt : Expression → Prop
  | paren l => ∀ x ∈ l.operands, x.isList = false
  | call _ l => ∀ x ∈ l.items, x.isList = false
  | _ => True

/-- No operator in parentheses has a list in parentheses as an operand, and no function as a
parameter. -/
def Plain (e : Expression) : Prop := e.All PlainAt

end Expression

variable {e l : Expression} {result : V}

theorem arguments_item (h : 1 ≤ e.level) :
    arguments ops e = (do return [← eval ops e ops.undefined]) := by
  cases e with
  | comma => exact absurd h (by simp [Expression.level])
  | _ => rw [arguments]; simp

theorem execute_levelChild (hl : l.Parses) (h : ∀ x ∈ l.operands, x.isList = false)
    (result : V) : execute ops (levelChild l.node) result = execute ops l.node result := by
  by_cases hlist : l.node.IsList
  · exact execute_levelChild_of_filled ops (filled_node hl) hlist result
  · rw [levelChild_node hl (one_le_level hl hlist) h]

theorem execute_item (he : e.Parses) (hlevel : 1 ≤ e.level) (hitems : e.items = [e])
    (hexecute : ∀ result, execute ops e.node result = eval ops e result) :
    (∀ result, execute ops e.node result = eval ops e result) ∧
      ((∀ x ∈ e.items, x.isList = false) →
        executeAll ops (leveled e.node) = arguments ops e) := by
  refine ⟨hexecute, fun hlists => ?_⟩
  have hnot : ¬ e.node.IsList := by
    rw [node_isList_iff he, hlists e (by simp [hitems])]
    exact Bool.false_ne_true
  rw [leveled_of_not_isList hnot, arguments_item ops hlevel]
  simp [executeAll, hexecute]

/-- A program has the meaning of its expression. -/
theorem execute_node (he : e.Parses) (h : e.Plain) :
    (∀ result, execute ops e.node result = eval ops e result) ∧
      ((∀ x ∈ e.items, x.isList = false) →
        executeAll ops (leveled e.node) = arguments ops e) := by
  induction e with
  | unary op e ih =>
    refine execute_item ops he (Nat.le_add_left 1 13) rfl fun result => ?_
    have he' := (ih he.1 h.2).1
    cases op with
    | identity => rw [Expression.node, eval, he']
    | _ => simp [Expression.node, execute_of_ne, eval, executeAll, operate, he']
  | binary op l r ihl ihr =>
    refine execute_item ops he (le_trans (by decide) op.three_le_level) rfl fun result => ?_
    rw [Expression.node, execute_of_ne ops (by simp), eval]
    simp [executeAll, operate, (ihl he.1.1 h.2.1).1, (ihr he.2.1 h.2.2).1]
  | tildeEqual l r => exact absurd he id
  | conditional c x y ihc ihx ihy =>
    refine execute_item ops he (Nat.le_succ 1) rfl fun result => ?_
    rw [Expression.node, execute, eval]
    simp [(ihc he.1.1 h.2.1).1, (ihx he.2.1.1 h.2.2.1).1, (ihy he.2.2.1 h.2.2.2).1]
  | assignment l e _ ihe =>
    refine execute_item ops he (le_refl 1) rfl fun result => ?_
    obtain ⟨⟨name, rfl⟩, he, -⟩ := he
    rw [Expression.node, execute_of_ne ops (by simp), eval]
    simp [executeAll, operate, (ihe he h.2).1]
  | comma l e ihl ihe =>
    refine ⟨fun result => ?_, fun hitems => ?_⟩
    · rw [Expression.node, execute_list, eval]
      simp [executeLast, (ihl he.1 h.2.1).1, (ihe he.2.1 h.2.2).1]
    · have hitem : e.isList = false := hitems e (by simp [Expression.items])
      have hnot : ¬ e.node.IsList := by
        rw [node_isList_iff he.2.1, hitem]
        exact Bool.false_ne_true
      have hfront := (ihl he.1 h.2.1).2 fun x hx => hitems x (by simp [Expression.items, hx])
      rw [Expression.node, leveled, levelChildren, levelChildren, levelChildren,
        leveled_of_not_isList hnot, executeAll_append, hfront, arguments]
      simp [executeAll, (ihe he.2.1 h.2.2).1]
  | paren l ih =>
    refine execute_item ops he (Nat.le_add_left 1 13) rfl fun result => ?_
    rw [Expression.node, execute_levelChild ops (l := l) he h.1, (ih he h.2).1, eval]
  | call name l ih =>
    refine execute_item ops he (Nat.le_add_left 1 13) rfl fun result => ?_
    rw [Expression.node, execute_of_ne ops (by simp), (ih he h.2).2 h.1, eval]
    rfl
  | _ =>
    refine execute_item ops he (Nat.le_add_left 1 13) rfl fun result => ?_
    rw [Expression.node, execute_of_ne ops (by simp), eval]
    simp [executeAll, operate]

end Meaning

section Wrapping

/-- One part of an expression is put in parentheses: an item, an operand, or a list that is in
parentheses already. The list of the parameters of a function is no such part, and `parameters`
says that the expression is one. -/
inductive Wraps : Bool → Expression → Expression → Prop
  | here {parameters : Bool} {e : Expression} : (parameters = true → 1 ≤ e.level) →
      Wraps parameters e (.paren e)
  | unary {parameters : Bool} {op : UnaryOperation} {e e' : Expression} : Wraps false e e' →
      Wraps parameters (.unary op e) (.unary op e')
  | left {parameters : Bool} {op : BinaryOperation} {l l' r : Expression} : Wraps false l l' →
      Wraps parameters (.binary op l r) (.binary op l' r)
  | right {parameters : Bool} {op : BinaryOperation} {l r r' : Expression} : Wraps false r r' →
      Wraps parameters (.binary op l r) (.binary op l r')
  | condition {parameters : Bool} {c c' x y : Expression} : Wraps false c c' →
      Wraps parameters (.conditional c x y) (.conditional c' x y)
  | whenTrue {parameters : Bool} {c x x' y : Expression} : Wraps false x x' →
      Wraps parameters (.conditional c x y) (.conditional c x' y)
  | whenFalse {parameters : Bool} {c x y y' : Expression} : Wraps false y y' →
      Wraps parameters (.conditional c x y) (.conditional c x y')
  | assignment {parameters : Bool} {l e e' : Expression} : Wraps false e e' →
      Wraps parameters (.assignment l e) (.assignment l e')
  | front {parameters : Bool} {l l' e : Expression} : Wraps parameters l l' →
      Wraps parameters (.comma l e) (.comma l' e)
  | last {parameters : Bool} {l e e' : Expression} : Wraps false e e' →
      Wraps parameters (.comma l e) (.comma l e')
  | paren {parameters : Bool} {l l' : Expression} : Wraps false l l' →
      Wraps parameters (.paren l) (.paren l')
  | call {parameters : Bool} {name : Name} {l l' : Expression} : Wraps true l l' →
      Wraps parameters (.call name l) (.call name l')

variable {parameters : Bool} {e e' l l' : Expression}

theorem Wraps.parses (h : Wraps parameters e e') (he : e.Parses) :
    e'.Parses ∧ e.level ≤ e'.level := by
  induction h with
  | here => exact ⟨he, Expression.level_le _⟩
  | unary _ ih => exact ⟨⟨(ih he.1).1, le_trans he.2 (ih he.1).2⟩, le_refl _⟩
  | left _ ih =>
    obtain ⟨⟨hl, hll⟩, hr⟩ := he
    exact ⟨⟨⟨(ih hl).1, le_trans hll (ih hl).2⟩, hr⟩, le_refl _⟩
  | right _ ih =>
    obtain ⟨hl, hr, hrl⟩ := he
    exact ⟨⟨hl, (ih hr).1, le_trans hrl (ih hr).2⟩, le_refl _⟩
  | condition _ ih =>
    obtain ⟨⟨hc, hcl⟩, hxy⟩ := he
    exact ⟨⟨⟨(ih hc).1, le_trans hcl (ih hc).2⟩, hxy⟩, le_refl _⟩
  | whenTrue _ ih =>
    obtain ⟨hc, ⟨hx, hxl⟩, hy⟩ := he
    exact ⟨⟨hc, ⟨(ih hx).1, le_trans hxl (ih hx).2⟩, hy⟩, le_refl _⟩
  | whenFalse _ ih =>
    obtain ⟨hc, hx, hy, hyl⟩ := he
    exact ⟨⟨hc, hx, (ih hy).1, le_trans hyl (ih hy).2⟩, le_refl _⟩
  | assignment _ ih =>
    obtain ⟨hname, he, hel⟩ := he
    exact ⟨⟨hname, (ih he).1, le_trans hel (ih he).2⟩, le_refl _⟩
  | front _ ih => exact ⟨⟨(ih he.1).1, he.2⟩, le_refl _⟩
  | last _ ih =>
    obtain ⟨hl, he, hel⟩ := he
    exact ⟨⟨hl, (ih he).1, le_trans hel (ih he).2⟩, le_refl _⟩
  | paren _ ih | call _ ih => exact ⟨(ih he).1, le_refl _⟩

theorem Wraps.isList (h : Wraps parameters e e') : e'.isList = e.isList := by
  induction h with
  | @unary _ op _ _ _ ih =>
    cases op with
    | identity => exact ih
    | _ => rfl
  | paren _ ih => exact ih
  | _ => rfl

theorem Wraps.eval (h : Wraps parameters e e') :
    (∀ result, eval ops e' result = eval ops e result) ∧
      (parameters = true → arguments ops e' = arguments ops e) := by
  have hitem : ∀ {parameters : Bool} {x x' : Expression}, 1 ≤ x.level → 1 ≤ x'.level →
      (∀ result, Expr.eval ops x' result = Expr.eval ops x result) →
      (∀ result, Expr.eval ops x' result = Expr.eval ops x result) ∧
        (parameters = true → arguments ops x' = arguments ops x) := by
    refine fun hx hx' heval => ⟨heval, fun _ => ?_⟩
    rw [arguments_item ops hx, arguments_item ops hx', heval]
  have hone : ∀ op : BinaryOperation, 1 ≤ op.level := fun op =>
    le_trans (by decide) op.three_le_level
  induction h with
  | @here _ e hlevel =>
    refine ⟨fun result => by rw [Expr.eval], fun htrue => ?_⟩
    rw [arguments_item ops (hlevel htrue),
      arguments_item ops (e := .paren e) (Nat.le_add_left 1 13), Expr.eval]
  | @unary _ op _ _ _ ih =>
    refine hitem (Nat.le_add_left 1 13) (Nat.le_add_left 1 13) fun result => ?_
    cases op <;> simp [Expr.eval, ih.1]
  | @left _ op _ _ _ _ ih => exact hitem (hone op) (hone op) fun _ => by simp [Expr.eval, ih.1]
  | @right _ op _ _ _ _ ih => exact hitem (hone op) (hone op) fun _ => by simp [Expr.eval, ih.1]
  | condition _ ih | whenTrue _ ih | whenFalse _ ih =>
    exact hitem (Nat.le_succ 1) (Nat.le_succ 1) fun _ => by simp [Expr.eval, ih.1]
  | @assignment _ l _ _ _ ih =>
    refine hitem (le_refl 1) (le_refl 1) fun result => ?_
    cases l <;> simp [Expr.eval, ih.1]
  | front _ ih =>
    refine ⟨fun result => by simp [Expr.eval, ih.1], fun htrue => ?_⟩
    rw [arguments, arguments, ih.2 htrue]
  | last _ ih =>
    refine ⟨fun result => by simp [Expr.eval, ih.1], fun _ => ?_⟩
    rw [arguments, arguments]
    simp [ih.1]
  | paren _ ih =>
    exact hitem (Nat.le_add_left 1 13) (Nat.le_add_left 1 13) fun _ => by simp [Expr.eval, ih.1]
  | call _ ih =>
    exact hitem (Nat.le_add_left 1 13) (Nat.le_add_left 1 13) fun _ => by
      simp [Expr.eval, ih.2 rfl]

theorem Wraps.operands (h : Wraps parameters l l') (hplain : l'.Plain)
    (hlists : ∀ x ∈ l'.operands, x.isList = false) : ∀ x ∈ l.operands, x.isList = false := by
  induction h with
  | here => exact hplain.self
  | @unary _ op e e' hwraps ih =>
    cases op with
    | identity => exact ih hplain.2 hlists
    | _ =>
      have he := hlists e' (List.mem_singleton_self _)
      rw [hwraps.isList] at he
      simpa [Expression.operands] using he
  | left hwraps | right hwraps | condition hwraps | whenTrue hwraps | whenFalse hwraps
  | assignment hwraps =>
    simpa [Expression.operands, hwraps.isList] using hlists
  | _ => exact fun x hx => absurd hx (by simp [Expression.operands])

theorem Wraps.items (h : Wraps true l l') (hlists : ∀ x ∈ l'.items, x.isList = false) :
    ∀ x ∈ l.items, x.isList = false := by
  generalize hparameters : true = parameters at h
  have hitem : ∀ {x x' : Expression}, (∀ y ∈ x'.items, y.isList = false) → x.items = [x] →
      x'.items = [x'] → x'.isList = x.isList → ∀ y ∈ x.items, y.isList = false := by
    intro x x' hall hx hx' heq y hy
    rw [hx, List.mem_singleton] at hy
    rw [hy, ← heq]
    exact hall x' (by rw [hx']; exact List.mem_singleton_self _)
  induction h with
  | @here _ e hlevel =>
    have hitems : e.items = [e] := by
      cases e with
      | comma => exact absurd (hlevel hparameters.symm) (by simp [Expression.level])
      | _ => rfl
    exact hitem hlists hitems rfl rfl
  | front hwraps ih =>
    intro y hy
    rcases List.mem_append.mp hy with hy | hy
    · exact ih (fun x hx => hlists x (List.mem_append_left _ hx)) hparameters y hy
    · exact hlists y (List.mem_append_right _ hy)
  | @last _ l e e' hwraps ih =>
    intro y hy
    rcases List.mem_append.mp hy with hy | hy
    · exact hlists y (List.mem_append_left _ hy)
    · rw [List.mem_singleton.mp hy, ← hwraps.isList]
      exact hlists e' (List.mem_append_right _ (List.mem_singleton_self _))
  | @unary _ op e e' hwraps =>
    have hunary : Wraps false (.unary op e) (.unary op e') := .unary hwraps
    exact hitem hlists rfl rfl hunary.isList
  | @paren _ e e' hwraps =>
    have hparen : Wraps false (.paren e) (.paren e') := .paren hwraps
    exact hitem hlists rfl rfl hparen.isList
  | _ => exact hitem hlists rfl rfl rfl

theorem Wraps.plain (h : Wraps parameters e e') (hplain : e'.Plain) : e.Plain := by
  induction h with
  | here => exact hplain.2
  | unary _ ih => exact ⟨trivial, ih hplain.2⟩
  | left _ ih => exact ⟨trivial, ih hplain.2.1, hplain.2.2⟩
  | right _ ih => exact ⟨trivial, hplain.2.1, ih hplain.2.2⟩
  | condition _ ih => exact ⟨trivial, ih hplain.2.1, hplain.2.2⟩
  | whenTrue _ ih => exact ⟨trivial, hplain.2.1, ih hplain.2.2.1, hplain.2.2.2⟩
  | whenFalse _ ih => exact ⟨trivial, hplain.2.1, hplain.2.2.1, ih hplain.2.2.2⟩
  | assignment _ ih => exact ⟨trivial, ih hplain.2⟩
  | front _ ih => exact ⟨trivial, ih hplain.2.1, hplain.2.2⟩
  | last _ ih => exact ⟨trivial, hplain.2.1, ih hplain.2.2⟩
  | paren hwraps ih => exact ⟨hwraps.operands hplain.2 hplain.1, ih hplain.2⟩
  | call hwraps ih => exact ⟨hwraps.items hplain.1, ih hplain.2⟩

end Wrapping

section Counts

namespace Expression

def KeptAt : Expression → Prop
  | paren l => ¬ l.node.IsList → (levelChild l.node).children.length = l.node.children.length
  | call name l => (call name l).node.children.length = l.items.length
  | _ => True

end Expression

variable {e e' l : Expression}

theorem operands_of_isList (h : l.isList = true) : l.operands = [] := by
  induction l with
  | unary op e ih =>
    cases op with
    | identity => exact ih h
    | _ => cases h
  | paren | comma => rfl
  | _ => cases h

theorem length_leveled_iff (he : e.Parses) :
    e.items.length ≤ (leveled e.node).length ∧
      ((leveled e.node).length = e.items.length ↔ ∀ x ∈ e.items, x.isList = false) := by
  have hitem : ∀ {x : Expression}, x.Parses → x.items = [x] →
      x.items.length ≤ (leveled x.node).length ∧
        ((leveled x.node).length = x.items.length ↔ ∀ y ∈ x.items, y.isList = false) := by
    intro x hx hitems
    have hcounted := (filled_node hx).counted
    have hlist := node_isList_iff hx
    rw [hitems]
    refine ⟨hcounted.1, fun hlength y hy => ?_, fun hlists => ?_⟩
    · rw [List.mem_singleton.mp hy, ← Bool.not_eq_true, ← hlist]
      intro h
      have htwo := hcounted.2 h
      simp only [List.length_singleton] at hlength
      omega
    · rw [leveled_of_not_isList]
      · rfl
      · rw [hlist, hlists x (List.mem_singleton_self _)]
        exact Bool.false_ne_true
  induction e with
  | comma l e ihl ihe =>
    obtain ⟨hle, hiff⟩ := ihl he.1
    have hcounted := (filled_node he.2.1).counted
    have hlist := node_isList_iff he.2.1
    have hlength : (leveled (Expression.comma l e).node).length =
        (leveled l.node).length + (leveled e.node).length := by
      simp [Expression.node, leveled, levelChildren]
    have hcount : (Expression.comma l e).items.length = l.items.length + 1 := by
      simp [Expression.items]
    have hone := hcounted.1
    rw [hlength, hcount]
    refine ⟨by omega, fun heq x hx => ?_, fun hlists => ?_⟩
    · rcases List.mem_append.mp hx with hx | hx
      · exact hiff.mp (by omega) x hx
      · rw [List.mem_singleton.mp hx, ← Bool.not_eq_true, ← hlist]
        intro h
        have htwo := hcounted.2 h
        omega
    · have hfront := hiff.mpr fun x hx => hlists x (List.mem_append_left _ hx)
      have hlast : e.isList = false :=
        hlists e (List.mem_append_right _ (List.mem_singleton_self _))
      have hnot : ¬ e.node.IsList := by
        rw [hlist, hlast]
        exact Bool.false_ne_true
      rw [hfront, leveled_of_not_isList hnot]
      rfl
  | _ => exact hitem he rfl

theorem keptAt_iff (he : e.Parses) : e.KeptAt ↔ e.PlainAt := by
  cases e with
  | paren l =>
    have hl : l.Parses := he
    have hlist := node_isList_iff hl
    change (_ → _) ↔ ∀ x ∈ l.operands, x.isList = false
    by_cases hnode : l.node.IsList
    · rw [operands_of_isList (hlist.mp hnode)]
      exact ⟨fun _ x hx => absurd hx List.not_mem_nil, fun _ hnot => absurd hnode hnot⟩
    · rw [children_levelChild]
      rcases children_node hl (one_le_level hl hnode) with hchildren | ⟨hoperands, hchildren⟩
      · have hcounted : ∀ child ∈ l.node.children, Counted child := by
          rw [hchildren]
          intro child hchild
          obtain ⟨x, hx, rfl⟩ := List.mem_map.mp hchild
          exact (filled_node (operands_parse hl x hx).1).counted
        have hiff := length_levelChildren_iff hcounted
        rw [forall_prop_of_true hnode, hiff, hchildren, List.forall_mem_map]
        refine forall₂_congr fun x hx => ?_
        rw [node_isList_iff (operands_parse hl x hx).1, Bool.not_eq_true]
      · rw [hoperands, levelChildren_eq_self hchildren]
        exact ⟨fun _ x hx => absurd hx List.not_mem_nil, fun _ _ => rfl⟩
  | call name l => exact (length_leveled_iff (e := l) he).2
  | _ => exact Iff.rfl

theorem all_keptAt_iff (he : e.Parses) : e.All Expression.KeptAt ↔ e.Plain := by
  have hself := keptAt_iff he
  unfold Expression.Plain
  induction e with
  | unary op e ih => exact and_congr hself (ih he.1 (keptAt_iff he.1))
  | binary op l r ihl ihr =>
    obtain ⟨⟨hl, -⟩, hr, -⟩ := he
    exact and_congr hself (and_congr (ihl hl (keptAt_iff hl)) (ihr hr (keptAt_iff hr)))
  | tildeEqual l r => exact absurd he id
  | conditional c x y ihc ihx ihy =>
    obtain ⟨⟨hc, -⟩, ⟨hx, -⟩, hy, -⟩ := he
    exact and_congr hself (and_congr (ihc hc (keptAt_iff hc))
      (and_congr (ihx hx (keptAt_iff hx)) (ihy hy (keptAt_iff hy))))
  | assignment l e _ ihe => exact and_congr hself (ihe he.2.1 (keptAt_iff he.2.1))
  | comma l e ihl ihe =>
    obtain ⟨hl, he, -⟩ := he
    exact and_congr hself (and_congr (ihl hl (keptAt_iff hl)) (ihe he (keptAt_iff he)))
  | paren l ih => exact and_congr hself (ih he (keptAt_iff (e := l) he))
  | call name l ih => exact and_congr hself (ih he (keptAt_iff (e := l) he))
  | _ => exact hself

end Counts

/-- Parentheses that are put in keep the meaning: both programs do the same, whatever the operators,
the functions and the environment are, and it is what the expression means; and no operator or
function has other operands than those that are written. -/
def Preserves (e e' : Expression) : Prop :=
  ∃ node node', Compiles e.tokens (some node) ∧ Compiles e'.tokens (some node') ∧
    (∀ (V E F : Type) (ops : Operations V E F) (result : V),
      execute ops node' result = execute ops node result ∧
        execute ops node' result = eval ops e' result) ∧
    e'.All Expression.KeptAt

/-- Parentheses keep the meaning exactly when no list in parentheses is an operand of an operator
in parentheses or a parameter of a function. -/
theorem preserves_iff_plain {e e' : Expression} (he : e.Parses) (hlevel : 1 ≤ e.level)
    (h : Wraps false e e') : Preserves e e' ↔ e'.Plain := by
  obtain ⟨he', hlevel'⟩ := h.parses he
  constructor
  · rintro ⟨_, _, _, _, _, hkept⟩
    exact (all_keptAt_iff he').mp hkept
  · intro hplain
    refine ⟨e.node, e'.node, compiles_tokens he hlevel,
      compiles_tokens he' (le_trans hlevel hlevel'),
      fun V E F ops result => ?_, (all_keptAt_iff he').mpr hplain⟩
    have hmeaning := (execute_node ops he' hplain).1 result
    refine ⟨?_, hmeaning⟩
    calc execute ops e'.node result = eval ops e' result := hmeaning
      _ = eval ops e result := (h.eval ops).1 result
      _ = execute ops e.node result := ((execute_node ops he (h.plain hplain)).1 result).symm

def integerOperations : Operations Int64 Unit Unit where
  unary op _ values := match op, values with
    | .negate, value :: _ => .ok (-value)
    | .bitwiseNot, value :: _ => .ok (~~~value)
    | _, value :: _ => .ok value
    | _, [] => .error ()
  binary op _ values := match op, values with
    | .add, left :: right :: _ => .ok (left + right)
    | .subtract, left :: right :: _ => .ok (left - right)
    | .multiply, left :: right :: _ => .ok (left * right)
    | _, _ => .error ()
  truth value := .ok (value != 0)
  call _ _ _ functions := (.error (), functions)
  boolean value := if value then 1 else 0
  integer value := value
  floatingPoint _ := 0
  string _ := 0
  undefined := 0

/-- `(1, 2) + 3` -/
def listOperand : Expression :=
  .binary .add (.paren (.comma (.integer 1) (.integer 2))) (.integer 3)

/-- `(1 + 2) + 3` and `(1 + (2)) + 3` -/
theorem preserves_sum : Preserves
    (.binary .add (.paren (.binary .add (.integer 1) (.integer 2))) (.integer 3))
    (.binary .add (.paren (.binary .add (.integer 1) (.paren (.integer 2)))) (.integer 3)) := by
  have hparses : (Expression.binary .add (.integer 1) (.integer 2)).Parses :=
    ⟨⟨trivial, by decide⟩, trivial, by decide⟩
  have hsum : (Expression.binary .add (.paren (.binary .add (.integer 1) (.integer 2)))
      (.integer 3)).Parses := ⟨⟨hparses, by decide⟩, trivial, by decide⟩
  have hwraps : Wraps false (.integer 2) (.paren (.integer 2)) := .here fun h => by cases h
  refine (preserves_iff_plain hsum (by decide) (.left (.paren (.right hwraps)))).mpr ?_
  simp [Expression.Plain, Expression.All, Expression.PlainAt, Expression.operands,
    Expression.isList]

/-- In parentheses the sum of the list is that of its first two items. -/
theorem listOperand_changes : Wraps false listOperand (.paren listOperand) ∧
    listOperand.Parses ∧ ¬ Preserves listOperand (.paren listOperand) ∧
    ∀ env, (execute integerOperations listOperand.node 0).run env = (.ok 5, env) ∧
      (execute integerOperations (Expression.paren listOperand).node 0).run env = (.ok 3, env) := by
  have hparses : listOperand.Parses :=
    ⟨⟨⟨trivial, trivial, by decide⟩, by decide⟩, trivial, by decide⟩
  have hwraps : Wraps false listOperand (.paren listOperand) := .here fun h => by cases h
  refine ⟨hwraps, hparses, ?_, fun env => ⟨rfl, rfl⟩⟩
  rintro ⟨_, _, _, _, _, hkept⟩
  have hplain := (all_keptAt_iff (e := .paren listOperand) hparses).mp hkept
  have hoperand := hplain.1 (.paren (.comma (.integer 1) (.integer 2))) List.mem_cons_self
  cases hoperand

end SnapCpp.Expr

import SnapCpp.ExprGrammar

/-!
Expressions as they are written. An expression has its tokens, a level of precedence, and the node
that the reducers make of it. The sequences that the grammar derives are the tokens of expressions
whose operands have the levels that the rules ask for, and their nodes are those of the
expressions.
-/
namespace SnapCpp.Expr

open SnapCpp.Parser (Token Item Rule Grammar Derives Derivable)

structure Name where
  first : QString
  rest : List QString
deriving DecidableEq

/-- An expression or a list of expressions, with the parentheses that are written. The operator
`~=` is documented and has no rule; an assignment is documented for every left operand. -/
inductive Expression where
  | identifier (name : QString)
  | boolean (value : Bool)
  | string (value : QString)
  | integer (value : UInt64)
  | floatingPoint (text : QString)
  | unary (op : UnaryOperation) (e : Expression)
  | binary (op : BinaryOperation) (l r : Expression)
  | tildeEqual (l r : Expression)
  | conditional (c x y : Expression)
  | assignment (l e : Expression)
  | comma (l e : Expression)
  | paren (l : Expression)
  | call (name : Name) (l : Expression)
  | callEmpty (name : Name)
deriving DecidableEq

def word (s : String) : Token := .literal (ascii s)

def Name.tokens (n : Name) : List Token :=
  .identifier n.first :: n.rest.flatMap fun x => [word "::", .identifier x]

def Name.value (n : Name) : QString := n.rest.foldl (fun v x => v ++ ascii "::" ++ x) n.first

namespace Expression

def tokens : Expression → List Token
  | identifier name => [.identifier name]
  | boolean true => [.keyword keywordTrue]
  | boolean false => [.keyword keywordFalse]
  | string value => [.string value]
  | integer value => [.integer value]
  | floatingPoint text => [.floatingPoint text]
  | unary op e => .literal op.symbol :: e.tokens
  | binary op l r => l.tokens ++ .literal op.symbol :: r.tokens
  | tildeEqual l r => l.tokens ++ word "~=" :: r.tokens
  | conditional c x y => c.tokens ++ word "?" :: (x.tokens ++ word ":" :: y.tokens)
  | assignment l e => l.tokens ++ word ":=" :: e.tokens
  | comma l e => l.tokens ++ word "," :: e.tokens
  | paren l => word "(" :: (l.tokens ++ [word ")"])
  | call name l => name.tokens ++ word "(" :: (l.tokens ++ [word ")"])
  | callEmpty name => name.tokens ++ [word "(", word ")"]

end Expression

def BinaryChoices.level : BinaryChoices → ℕ
  | logicalOrExpr => 3
  | logicalXorExpr => 4
  | logicalAndExpr => 5
  | bitwiseOrExpr => 6
  | bitwiseXorExpr => 7
  | bitwiseAndExpr => 8
  | equalityExpr => 9
  | relationalExpr => 10
  | shiftExpr => 11
  | additiveExpr => 12
  | multiplicativeExpr => 13

def BinaryOperation.choices : BinaryOperation → BinaryChoices
  | multiply | divide | modulo => .multiplicativeExpr
  | add | subtract => .additiveExpr
  | shiftLeft | shiftRight => .shiftExpr
  | less | lessOrEqual | greater | greaterOrEqual | minimum | maximum => .relationalExpr
  | equal | notEqual => .equalityExpr
  | bitwiseAnd => .bitwiseAndExpr
  | bitwiseXor => .bitwiseXorExpr
  | bitwiseOr => .bitwiseOrExpr
  | logicalAnd => .logicalAndExpr
  | logicalXor => .logicalXorExpr
  | logicalOr => .logicalOrExpr

def BinaryOperation.level (op : BinaryOperation) : ℕ := op.choices.level

def Choices.level : Choices → ℕ
  | qualifiedName => 0
  | exprList => 0
  | expr => 1
  | assignment => 1
  | conditionalExpr => 2
  | binary b => b.level
  | unaryExpr => 14

def Expression.level : Expression → ℕ
  | .comma .. => 0
  | .assignment .. => 1
  | .conditional .. => 2
  | .binary op .. => op.level
  | .tildeEqual .. => 10
  | _ => 14

def choicesAt : ℕ → Choices
  | 0 => .exprList
  | 1 => .expr
  | 2 => .conditionalExpr
  | 3 => .binary .logicalOrExpr
  | 4 => .binary .logicalXorExpr
  | 5 => .binary .logicalAndExpr
  | 6 => .binary .bitwiseOrExpr
  | 7 => .binary .bitwiseXorExpr
  | 8 => .binary .bitwiseAndExpr
  | 9 => .binary .equalityExpr
  | 10 => .binary .relationalExpr
  | 11 => .binary .shiftExpr
  | 12 => .binary .additiveExpr
  | 13 => .binary .multiplicativeExpr
  | _ => .unaryExpr

def Expression.Parses : Expression → Prop
  | .unary _ e => e.Parses ∧ 14 ≤ e.level
  | .binary op l r => (l.Parses ∧ op.level ≤ l.level) ∧ r.Parses ∧ op.level + 1 ≤ r.level
  | .tildeEqual .. => False
  | .conditional c x y =>
      (c.Parses ∧ 2 ≤ c.level) ∧ (x.Parses ∧ 1 ≤ x.level) ∧ y.Parses ∧ 3 ≤ y.level
  | .assignment l e => (∃ name, l = .identifier name) ∧ e.Parses ∧ 2 ≤ e.level
  | .comma l e => l.Parses ∧ e.Parses ∧ 1 ≤ e.level
  | .paren l => l.Parses
  | .call _ l => l.Parses
  | _ => True

def Expression.node : Expression → ExprNode
  | .identifier name => .node (.variable name) []
  | .boolean value => .node (.boolean value) []
  | .string value => .node (.string value) []
  | .integer value => .node (.integer value.toInt64) []
  | .floatingPoint text => .node (.floatingPoint text) []
  | .unary .identity e => e.node
  | .unary op e => .node (.unary op) [e.node]
  | .binary op l r => .node (.binary op) [l.node, r.node]
  | .conditional c x y => .node .conditional [c.node, x.node, y.node]
  | .assignment (.identifier name) e => .node (.assignment name) [e.node]
  | .comma l e => .node .list [l.node, e.node]
  | .paren l => levelChild l.node
  | .call name l => .node (.function name.value) (leveled l.node)
  | .callEmpty name => .node (.function name.value) []
  -- these are not parsed
  | .assignment l _ => l.node
  | .tildeEqual l _ => l.node

theorem choicesAt_level (op : BinaryOperation) : choicesAt op.level = .binary op.choices := by
  cases op <;> rfl

theorem choicesAt_succ_level (op : BinaryOperation) :
    choicesAt (op.level + 1) = op.choices.next := by
  cases op <;> rfl

theorem mem_operations (op : BinaryOperation) : op ∈ op.choices.operations := by
  cases op <;> decide

theorem choices_of_mem {b : BinaryChoices} {op : BinaryOperation} (h : op ∈ b.operations) :
    op.choices = b := by
  cases b <;> simp only [BinaryChoices.operations, List.mem_cons, List.not_mem_nil, or_false] at h
    <;> rcases h with rfl | rfl | rfl | rfl | rfl | rfl <;> rfl

theorem level_next (b : BinaryChoices) : b.next.level = b.level + 1 := by
  cases b <;> rfl

theorem BinaryOperation.three_le_level (op : BinaryOperation) : 3 ≤ op.level := by
  cases op <;> decide

theorem BinaryOperation.level_lt (op : BinaryOperation) : op.level < 14 := by
  cases op <;> decide

theorem Expression.level_le (e : Expression) : e.level ≤ 14 := by
  cases e with
  | binary op l r => exact op.level_lt.le
  | _ => simp [Expression.level]

section Derivations

variable {u v : List Token} {c : Choices} {items more : List (Item Choices)}

theorem derivable_rule {i : ℕ} {r : Rule Choices} (hr : (rules c)[i]? = some r)
    (h : Derivable grammar r.items u) : Derivable grammar [.choices c] u := by
  obtain ⟨ts, hts⟩ := h
  exact ⟨_, Derives.node hr hts⟩

theorem derivable_append (h : Derivable grammar items u) (h' : Derivable grammar more v) :
    Derivable grammar (items ++ more) (u ++ v) := by
  obtain ⟨ts, hts⟩ := h
  obtain ⟨us, hus⟩ := h'
  exact ⟨_, hts.append hus⟩

theorem derivable_token {item : Item Choices} {t : Token} (ht : item.accepts t)
    (h : Derivable grammar items u) : Derivable grammar (item :: items) (t :: u) := by
  obtain ⟨ts, hts⟩ := h
  exact ⟨_, Derives.token ht hts⟩

theorem derivable_nil : Derivable grammar [] [] := ⟨[], Derives.nil⟩

theorem accepts_literal (s : QString) : (Item.literal s : Item Choices).accepts (.literal s) := by
  simp [Item.accepts]

/-- The choices of a level derive what those of the next one do. -/
theorem derivable_step {k : ℕ} (hk : k < 14)
    (h : Derivable grammar [.choices (choicesAt (k + 1))] u) :
    Derivable grammar [.choices (choicesAt k)] u := by
  by_cases hone : k = 1
  · subst hone
    have hassignment : Derivable grammar [.choices .assignment] u :=
      derivable_rule (c := .assignment) (i := 0) rfl h
    exact derivable_rule (c := .expr) (i := 0) rfl hassignment
  · refine derivable_rule (i := 0) (r := ⟨.choices (choicesAt (k + 1)), []⟩) ?_ h
    interval_cases k <;> first | rfl | exact absurd rfl hone

theorem derivable_of_le {k m : ℕ} (hkm : k ≤ m) (hm : m ≤ 14)
    (h : Derivable grammar [.choices (choicesAt m)] u) :
    Derivable grammar [.choices (choicesAt k)] u := by
  induction m, hkm using Nat.le_induction with
  | base => exact h
  | succ m _ ih => exact ih (by omega) (derivable_step (by omega) h)

theorem Name.derivable (n : Name) : Derivable grammar [.choices .qualifiedName] n.tokens := by
  obtain ⟨first, rest⟩ := n
  induction rest using List.reverseRecOn with
  | nil =>
    exact derivable_rule (c := .qualifiedName) (i := 0) rfl (derivable_token rfl derivable_nil)
  | append_singleton front x ih =>
    have hend : Derivable grammar [literal "::", .identifier] [word "::", .identifier x] :=
      derivable_token (accepts_literal _) (derivable_token rfl derivable_nil)
    have hall := derivable_rule (c := .qualifiedName) (i := 1) rfl (derivable_append ih hend)
    simpa [Name.tokens] using hall

theorem Expression.derivable_level {e : Expression} (h : e.Parses) :
    Derivable grammar [.choices (choicesAt e.level)] e.tokens := by
  induction e with
  | identifier name =>
    exact derivable_rule (c := .unaryExpr) (i := 7) rfl (derivable_token rfl derivable_nil)
  | boolean value =>
    cases value with
    | true =>
      exact derivable_rule (c := .unaryExpr) (i := 8) rfl (derivable_token rfl derivable_nil)
    | false =>
      exact derivable_rule (c := .unaryExpr) (i := 9) rfl (derivable_token rfl derivable_nil)
  | string value =>
    exact derivable_rule (c := .unaryExpr) (i := 10) rfl (derivable_token rfl derivable_nil)
  | integer value =>
    exact derivable_rule (c := .unaryExpr) (i := 11) rfl (derivable_token rfl derivable_nil)
  | floatingPoint text =>
    exact derivable_rule (c := .unaryExpr) (i := 12) rfl (derivable_token rfl derivable_nil)
  | unary op e ih =>
    have he := derivable_of_le h.2 e.level_le (ih h.1)
    cases op with
    | logicalNot =>
      exact derivable_rule (c := .unaryExpr) (i := 0) rfl (derivable_token (accepts_literal _) he)
    | bitwiseNot =>
      exact derivable_rule (c := .unaryExpr) (i := 1) rfl (derivable_token (accepts_literal _) he)
    | identity =>
      exact derivable_rule (c := .unaryExpr) (i := 2) rfl (derivable_token (accepts_literal _) he)
    | negate =>
      exact derivable_rule (c := .unaryExpr) (i := 3) rfl (derivable_token (accepts_literal _) he)
  | binary op l r ihl ihr =>
    obtain ⟨⟨hl, hll⟩, hr, hrl⟩ := h
    have hleft := derivable_of_le hll l.level_le (ihl hl)
    have hright := derivable_of_le hrl r.level_le (ihr hr)
    rw [choicesAt_level] at hleft
    rw [choicesAt_succ_level] at hright
    obtain ⟨i, hi⟩ := List.mem_iff_getElem?.mp (mem_operations op)
    have hrule : (rules (.binary op.choices))[i + 1]? =
        some ⟨.choices (.binary op.choices), [.literal op.symbol, .choices op.choices.next]⟩ := by
      simp [rules, hi]
    change Derivable grammar [.choices (choicesAt op.level)] _
    rw [choicesAt_level]
    exact derivable_rule hrule
      (derivable_append hleft (derivable_token (accepts_literal _) hright))
  | tildeEqual l r => exact absurd h id
  | conditional c x y ihc ihx ihy =>
    obtain ⟨⟨hc, hcl⟩, ⟨hx, hxl⟩, hy, hyl⟩ := h
    have hcond := derivable_of_le hcl c.level_le (ihc hc)
    have hthen := derivable_of_le hxl x.level_le (ihx hx)
    have helse := derivable_of_le hyl y.level_le (ihy hy)
    have hmiddle := derivable_append hthen (derivable_token (accepts_literal (ascii ":")) helse)
    exact derivable_rule (c := .conditionalExpr) (i := 1) rfl
      (derivable_append hcond (derivable_token (accepts_literal (ascii "?")) hmiddle))
  | assignment l e _ ihe =>
    obtain ⟨⟨name, rfl⟩, he, hel⟩ := h
    have hvalue := derivable_of_le hel e.level_le (ihe he)
    have hassignment : Derivable grammar [.choices .assignment]
        (Expression.assignment (.identifier name) e).tokens :=
      derivable_rule (c := .assignment) (i := 1) rfl
        (derivable_token rfl (derivable_token (accepts_literal (ascii ":=")) hvalue))
    exact derivable_rule (c := .expr) (i := 0) rfl hassignment
  | comma l e ihl ihe =>
    obtain ⟨hl, he, hel⟩ := h
    have hlist := derivable_of_le (Nat.zero_le _) l.level_le (ihl hl)
    have hitem := derivable_of_le hel e.level_le (ihe he)
    exact derivable_rule (c := .exprList) (i := 1) rfl
      (derivable_append hlist (derivable_token (accepts_literal (ascii ",")) hitem))
  | paren l ih =>
    have hlist := derivable_of_le (Nat.zero_le _) l.level_le (ih h)
    have hend : Derivable grammar [literal ")"] [word ")"] :=
      derivable_token (accepts_literal _) derivable_nil
    exact derivable_rule (c := .unaryExpr) (i := 4) rfl
      (derivable_token (accepts_literal (ascii "(")) (derivable_append hlist hend))
  | call name l ih =>
    have hlist := derivable_of_le (Nat.zero_le _) l.level_le (ih h)
    have hend : Derivable grammar [literal ")"] [word ")"] :=
      derivable_token (accepts_literal _) derivable_nil
    exact derivable_rule (c := .unaryExpr) (i := 6) rfl (derivable_append name.derivable
      (derivable_token (accepts_literal (ascii "(")) (derivable_append hlist hend)))
  | callEmpty name =>
    have hend : Derivable grammar [literal "(", literal ")"] [word "(", word ")"] :=
      derivable_token (accepts_literal _) (derivable_token (accepts_literal _) derivable_nil)
    exact derivable_rule (c := .unaryExpr) (i := 5) rfl (derivable_append name.derivable hend)

end Derivations

section Nodes

def Written (k : ℕ) (u : List Token) (data : Option ExprNode) : Prop :=
  ∃ e : Expression, e.Parses ∧ k ≤ e.level ∧ e.tokens = u ∧ data = some e.node

def Good : Choices → Value → List Token → Prop
  | .qualifiedName, v, u => ∃ name : Name, name.tokens = u ∧ v.name = name.value
  | c, v, u => Written c.level u v.data

inductive Matches : List (Item Choices) → List Value → List Token → Prop
  | nil : Matches [] [] []
  | token {item : Item Choices} {items : List (Item Choices)} {t : Token} {vs : List Value}
      {u : List Token} : item.accepts t → Matches items vs u →
      Matches (item :: items) (.token t :: vs) (t :: u)
  | empty {items : List (Item Choices)} {vs : List Value} {u : List Token} :
      Matches items vs u → Matches (.empty :: items) (.empty :: vs) u
  | choices {c : Choices} {items : List (Item Choices)} {v : Value} {vs : List Value}
      {x u : List Token} : Good c v x → Matches items vs u →
      Matches (.choices c :: items) (v :: vs) (x ++ u)

variable {u : List Token} {vs : List Value} {items : List (Item Choices)} {c : Choices}
  {s : QString} {i : ℕ} {r : Rule Choices}

theorem Matches.of_nil (h : Matches [] vs u) : vs = [] ∧ u = [] := by
  cases h
  exact ⟨rfl, rfl⟩

theorem Matches.of_literal (h : Matches (.literal s :: items) vs u) :
    ∃ vs' u', vs = .token (.literal s) :: vs' ∧ u = .literal s :: u' ∧ Matches items vs' u' := by
  cases h with
  | @token _ _ t vs' u' haccepts hrest =>
    cases t with
    | literal v =>
      obtain rfl : v = s := eq_of_beq haccepts
      exact ⟨vs', u', rfl, rfl, hrest⟩
    | _ => cases haccepts

theorem Matches.of_choices (h : Matches (.choices c :: items) vs u) :
    ∃ v vs' x y, vs = v :: vs' ∧ u = x ++ y ∧ Good c v x ∧ Matches items vs' y := by
  cases h with
  | token haccepts => cases haccepts
  | choices hgood hrest => exact ⟨_, _, _, _, rfl, rfl, hgood, hrest⟩

theorem Matches.of_identifier (h : Matches (.identifier :: items) vs u) :
    ∃ name vs' u', vs = .token (.identifier name) :: vs' ∧ u = .identifier name :: u' ∧
      Matches items vs' u' := by
  cases h with
  | @token _ _ t vs' u' haccepts hrest =>
    cases t with
    | identifier name => exact ⟨name, vs', u', rfl, rfl, hrest⟩
    | _ => cases haccepts

/-- The rule of choices that only are other ones. -/
theorem Matches.of_copy (h : Matches [.choices c] vs u) : ∃ v, vs = [v] ∧ Good c v u := by
  obtain ⟨v, vs', x, y, rfl, rfl, hgood, hrest⟩ := h.of_choices
  obtain ⟨rfl, rfl⟩ := hrest.of_nil
  exact ⟨v, rfl, by rwa [List.append_nil]⟩

theorem Written.mono {k m : ℕ} {data : Option ExprNode} (hkm : k ≤ m) (h : Written m u data) :
    Written k u data := by
  obtain ⟨e, he, hlevel, htokens, hdata⟩ := h
  exact ⟨e, he, le_trans hkm hlevel, htokens, hdata⟩

/-- The rule of an operator between choices. -/
theorem Matches.of_infix {d : Choices} (h : Matches [.choices c, .literal s, .choices d] vs u) :
    ∃ v w x y, vs = [v, .token (.literal s), w] ∧ u = x ++ .literal s :: y ∧ Good c v x ∧
      Good d w y := by
  obtain ⟨v, vs₁, x, y₁, rfl, rfl, hleft, h₁⟩ := h.of_choices
  obtain ⟨vs₂, y₂, rfl, rfl, h₂⟩ := h₁.of_literal
  obtain ⟨w, rfl, hright⟩ := h₂.of_copy
  exact ⟨v, w, x, y₂, rfl, rfl, hleft, hright⟩

theorem good_name (hr : (rules .qualifiedName)[i]? = some r)
    (h : Matches r.items vs u) : Good .qualifiedName (reducer .qualifiedName i vs) u := by
  match i, hr with
  | 0, hr =>
    cases hr
    obtain ⟨name, vs₁, u₁, rfl, rfl, h₁⟩ := h.of_identifier
    obtain ⟨rfl, rfl⟩ := h₁.of_nil
    exact ⟨⟨name, []⟩, rfl, rfl⟩
  | 1, hr =>
    cases hr
    obtain ⟨v, vs₁, x, u₁, rfl, rfl, ⟨⟨first, rest⟩, rfl, hvalue⟩, h₁⟩ := h.of_choices
    obtain ⟨vs₂, u₂, rfl, rfl, h₂⟩ := h₁.of_literal
    obtain ⟨name, vs₃, u₃, rfl, rfl, h₃⟩ := h₂.of_identifier
    obtain ⟨rfl, rfl⟩ := h₃.of_nil
    refine ⟨⟨first, rest ++ [name]⟩, by simp [Name.tokens, word], ?_⟩
    change v.name ++ ascii "::" ++ name = (rest ++ [name]).foldl _ first
    rw [hvalue, List.foldl_append]
    rfl

theorem good_exprList (hr : (rules .exprList)[i]? = some r)
    (h : Matches r.items vs u) : Good .exprList (reducer .exprList i vs) u := by
  match i, hr with
  | 0, hr =>
    cases hr
    obtain ⟨v, rfl, hgood⟩ := h.of_copy
    exact Written.mono (Nat.zero_le _) hgood
  | 1, hr =>
    cases hr
    obtain ⟨v, w, x, y, rfl, rfl, ⟨l, hl, -, rfl, hv⟩, ⟨e, he, hel, rfl, hw⟩⟩ := h.of_infix
    refine ⟨.comma l e, ⟨hl, he, hel⟩, Nat.zero_le _, rfl, ?_⟩
    change (v.data.bind fun l => w.data.map fun i => ExprNode.node .list [l, i]) = _
    rw [hv, hw]
    rfl

theorem good_binary {b : BinaryChoices} (hr : (rules (.binary b))[i]? = some r)
    (h : Matches r.items vs u) :
    Good (.binary b) (reducer (.binary b) i vs) u := by
  match i, hr with
  | 0, hr =>
    cases hr
    obtain ⟨v, rfl, hgood⟩ := h.of_copy
    have hwritten : Written b.next.level u v.data := by
      cases b <;> exact hgood
    rw [level_next] at hwritten
    exact hwritten.mono (Nat.le_succ _)
  | i + 1, hr =>
    obtain ⟨op, hop, rfl⟩ : ∃ op, b.operations[i]? = some op ∧
        (⟨.choices (.binary b), [.literal op.symbol, .choices b.next]⟩ : Rule Choices) = r := by
      simpa [rules] using hr
    obtain rfl := choices_of_mem (List.mem_of_getElem? hop)
    obtain ⟨v, w, x, y, rfl, rfl, ⟨l, hl, hll, rfl, hv⟩, hright⟩ := h.of_infix
    have hwritten : Written op.choices.next.level y w.data := by
      cases op <;> exact hright
    obtain ⟨e, he, hel, rfl, hw⟩ := hwritten
    rw [level_next] at hel
    refine ⟨.binary op l e, ⟨⟨hl, hll⟩, he, hel⟩, le_refl _, rfl, ?_⟩
    simp [reducer, hop, Value.binaryOperation, hv, hw, Expression.node]

theorem good_conditional (hr : (rules .conditionalExpr)[i]? = some r)
    (h : Matches r.items vs u) : Good .conditionalExpr (reducer .conditionalExpr i vs) u := by
  match i, hr with
  | 0, hr =>
    cases hr
    obtain ⟨v, rfl, hgood⟩ := h.of_copy
    exact Written.mono (Nat.le_succ 2) hgood
  | 1, hr =>
    cases hr
    obtain ⟨v, vs₁, x, u₁, rfl, rfl, ⟨c, hc, hcl, rfl, hv⟩, h₁⟩ := h.of_choices
    obtain ⟨vs₂, u₂, rfl, rfl, h₂⟩ := h₁.of_literal
    obtain ⟨w, z, y, y', rfl, rfl, ⟨t, ht, htl, rfl, hw⟩, ⟨f, hf, hfl, rfl, hz⟩⟩ := h₂.of_infix
    refine ⟨.conditional c t f, ⟨⟨hc, hcl⟩, ⟨ht, htl⟩, hf, hfl⟩, le_refl _, rfl, ?_⟩
    change (v.data.bind fun c => w.data.bind fun x => z.data.map fun y =>
      ExprNode.node .conditional [c, x, y]) = _
    rw [hv, hw, hz]
    rfl

theorem good_assignment (hr : (rules .assignment)[i]? = some r)
    (h : Matches r.items vs u) : Good .assignment (reducer .assignment i vs) u := by
  match i, hr with
  | 0, hr =>
    cases hr
    obtain ⟨v, rfl, hgood⟩ := h.of_copy
    exact Written.mono (Nat.le_succ 1) hgood
  | 1, hr =>
    cases hr
    obtain ⟨name, vs₁, u₁, rfl, rfl, h₁⟩ := h.of_identifier
    obtain ⟨vs₂, u₂, rfl, rfl, h₂⟩ := h₁.of_literal
    obtain ⟨w, rfl, ⟨e, he, hel, rfl, hw⟩⟩ := h₂.of_copy
    refine ⟨.assignment (.identifier name) e, ⟨⟨name, rfl⟩, he, hel⟩, le_refl _, rfl, ?_⟩
    change (w.data.map fun i => ExprNode.node (.assignment name) [i]) = _
    rw [hw]
    rfl

theorem good_expr (hr : (rules .expr)[i]? = some r)
    (h : Matches r.items vs u) : Good .expr (reducer .expr i vs) u := by
  match i, hr with
  | 0, hr =>
    cases hr
    obtain ⟨v, rfl, hgood⟩ := h.of_copy
    exact hgood

/-- The rule of a unary operator. -/
theorem Matches.of_unary (h : Matches [.literal s, .choices .unaryExpr] vs u) :
    ∃ v e, vs = [.token (.literal s), v] ∧ Expression.Parses e ∧ 14 ≤ e.level ∧
      u = .literal s :: e.tokens ∧ v.data = some e.node := by
  obtain ⟨vs₁, u₁, rfl, rfl, h₁⟩ := h.of_literal
  obtain ⟨v, rfl, ⟨e, he, hel, rfl, hv⟩⟩ := h₁.of_copy
  exact ⟨v, e, rfl, he, hel, rfl, hv⟩

theorem good_unary (hr : (rules .unaryExpr)[i]? = some r)
    (h : Matches r.items vs u) : Good .unaryExpr (reducer .unaryExpr i vs) u := by
  match i, hr with
  | 0, hr =>
    cases hr
    obtain ⟨v, e, rfl, he, hel, rfl, hv⟩ := h.of_unary
    refine ⟨.unary .logicalNot e, ⟨he, hel⟩, le_refl _, rfl, ?_⟩
    change (v.data.map fun x => ExprNode.node (.unary .logicalNot) [x]) = _
    rw [hv]
    rfl
  | 1, hr =>
    cases hr
    obtain ⟨v, e, rfl, he, hel, rfl, hv⟩ := h.of_unary
    refine ⟨.unary .bitwiseNot e, ⟨he, hel⟩, le_refl _, rfl, ?_⟩
    change (v.data.map fun x => ExprNode.node (.unary .bitwiseNot) [x]) = _
    rw [hv]
    rfl
  | 2, hr =>
    cases hr
    obtain ⟨v, e, rfl, he, hel, rfl, hv⟩ := h.of_unary
    exact ⟨.unary .identity e, ⟨he, hel⟩, le_refl _, rfl, hv⟩
  | 3, hr =>
    cases hr
    obtain ⟨v, e, rfl, he, hel, rfl, hv⟩ := h.of_unary
    refine ⟨.unary .negate e, ⟨he, hel⟩, le_refl _, rfl, ?_⟩
    change (v.data.map fun x => ExprNode.node (.unary .negate) [x]) = _
    rw [hv]
    rfl
  | 4, hr =>
    cases hr
    obtain ⟨vs₁, u₁, rfl, rfl, h₁⟩ := h.of_literal
    obtain ⟨v, vs₂, x, u₂, rfl, rfl, ⟨l, hl, -, rfl, hv⟩, h₂⟩ := h₁.of_choices
    obtain ⟨vs₃, u₃, rfl, rfl, h₃⟩ := h₂.of_literal
    obtain ⟨rfl, rfl⟩ := h₃.of_nil
    refine ⟨.paren l, hl, le_refl _, rfl, ?_⟩
    change v.data.map levelChild = _
    rw [hv]
    rfl
  | 5, hr =>
    cases hr
    obtain ⟨v, vs₁, x, u₁, rfl, rfl, ⟨name, rfl, hname⟩, h₁⟩ := h.of_choices
    obtain ⟨vs₂, u₂, rfl, rfl, h₂⟩ := h₁.of_literal
    obtain ⟨vs₃, u₃, rfl, rfl, h₃⟩ := h₂.of_literal
    obtain ⟨rfl, rfl⟩ := h₃.of_nil
    refine ⟨.callEmpty name, trivial, le_refl _, rfl, ?_⟩
    change some (ExprNode.node (.function v.name) []) = _
    rw [hname]
    rfl
  | 6, hr =>
    cases hr
    obtain ⟨v, vs₁, x, u₁, rfl, rfl, ⟨name, rfl, hname⟩, h₁⟩ := h.of_choices
    obtain ⟨vs₂, u₂, rfl, rfl, h₂⟩ := h₁.of_literal
    obtain ⟨w, vs₃, y, u₃, rfl, rfl, ⟨l, hl, -, rfl, hw⟩, h₃⟩ := h₂.of_choices
    obtain ⟨vs₄, u₄, rfl, rfl, h₄⟩ := h₃.of_literal
    obtain ⟨rfl, rfl⟩ := h₄.of_nil
    refine ⟨.call name l, hl, le_refl _, rfl, ?_⟩
    change (w.data.map fun l => ExprNode.node (.function v.name) (leveled l)) = _
    rw [hname, hw]
    rfl
  | 7, hr =>
    cases hr
    obtain ⟨name, vs₁, u₁, rfl, rfl, h₁⟩ := h.of_identifier
    obtain ⟨rfl, rfl⟩ := h₁.of_nil
    exact ⟨.identifier name, trivial, le_refl _, rfl, rfl⟩
  | 8, hr =>
    cases hr
    cases h with
    | @token _ _ t vs u haccepts h₁ =>
      obtain ⟨rfl, rfl⟩ := h₁.of_nil
      cases t with
      | keyword n =>
        obtain rfl : n = keywordTrue := eq_of_beq haccepts
        exact ⟨.boolean true, trivial, le_refl _, rfl, rfl⟩
      | _ => cases haccepts
  | 9, hr =>
    cases hr
    cases h with
    | @token _ _ t vs u haccepts h₁ =>
      obtain ⟨rfl, rfl⟩ := h₁.of_nil
      cases t with
      | keyword n =>
        obtain rfl : n = keywordFalse := eq_of_beq haccepts
        exact ⟨.boolean false, trivial, le_refl _, rfl, rfl⟩
      | _ => cases haccepts
  | 10, hr =>
    cases hr
    cases h with
    | @token _ _ t vs u haccepts h₁ =>
      obtain ⟨rfl, rfl⟩ := h₁.of_nil
      cases t with
      | string value => exact ⟨.string value, trivial, le_refl _, rfl, rfl⟩
      | _ => cases haccepts
  | 11, hr =>
    cases hr
    cases h with
    | @token _ _ t vs u haccepts h₁ =>
      obtain ⟨rfl, rfl⟩ := h₁.of_nil
      cases t with
      | integer value => exact ⟨.integer value, trivial, le_refl _, rfl, rfl⟩
      | _ => cases haccepts
  | 12, hr =>
    cases hr
    cases h with
    | @token _ _ t vs u haccepts h₁ =>
      obtain ⟨rfl, rfl⟩ := h₁.of_nil
      cases t with
      | floatingPoint value => exact ⟨.floatingPoint value, trivial, le_refl _, rfl, rfl⟩
      | _ => cases haccepts

theorem good_reducer (hr : (rules c)[i]? = some r)
    (h : Matches r.items vs u) : Good c (reducer c i vs) u := by
  cases c with
  | qualifiedName => exact good_name hr h
  | exprList => exact good_exprList hr h
  | unaryExpr => exact good_unary hr h
  | binary b => exact good_binary hr h
  | conditionalExpr => exact good_conditional hr h
  | assignment => exact good_assignment hr h
  | expr => exact good_expr hr h

/-- The reducers follow a derivation. -/
theorem matches_of_derives {ts : List (Parser.Tree Choices)} (h : Derives grammar items ts u) :
    Matches items (reducedAll ts) u := by
  induction h with
  | nil => exact Matches.nil
  | token haccepts _ ih => exact Matches.token haccepts ih
  | empty _ ih => exact Matches.empty ih
  | choices hrule _ _ ihtokens ih => exact Matches.choices (good_reducer hrule ihtokens) ih

/-- What is derived from an expression is one, with the node that was made. -/
theorem written_of_derives {t : Parser.Tree Choices}
    (h : Derives grammar [.choices .expr] [t] u) : Written 1 u (reduced t).data := by
  obtain ⟨v, hv, hgood⟩ := (matches_of_derives h).of_copy
  obtain rfl : reduced t = v := (List.cons.inj hv).1
  exact hgood

end Nodes

end SnapCpp.Expr

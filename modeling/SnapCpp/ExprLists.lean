import SnapCpp.ExprCompile

/-!
Lists in the nodes of a program. `list_expr_level_child()` replaces each child that is a list by
the items of the list, so it leaves a node alone when none of its children is a list, and makes it
longer otherwise.
-/
namespace SnapCpp.Expr

section Levels

def ExprNode.type : ExprNode → NodeType
  | .node type _ => type

def ExprNode.children : ExprNode → List ExprNode
  | .node _ children => children

def ExprNode.IsList (n : ExprNode) : Prop := n.type = .list

variable {n : ExprNode} {children : List ExprNode}

@[simp] theorem type_levelChild : (levelChild n).type = n.type := by
  cases n
  rfl

@[simp] theorem children_levelChild : (levelChild n).children = levelChildren n.children := by
  cases n
  rfl

theorem leveled_of_not_isList (h : ¬ n.IsList) : leveled n = [n] := by
  obtain ⟨type, children⟩ := n
  cases type with
  | list => exact absurd rfl h
  | _ => rw [leveled]; simp

theorem levelChildren_eq_self (h : ∀ child ∈ children, ¬ child.IsList) :
    levelChildren children = children := by
  induction children with
  | nil => rfl
  | cons child rest ih =>
    rw [levelChildren, leveled_of_not_isList (h child List.mem_cons_self),
      ih (List.forall_mem_cons.mp h).2]
    rfl

theorem levelChild_eq_self (h : ∀ child ∈ n.children, ¬ child.IsList) : levelChild n = n := by
  obtain ⟨type, children⟩ := n
  exact congrArg (ExprNode.node type) (levelChildren_eq_self h)

mutual

theorem not_isList_of_mem_leveled :
    ∀ (n : ExprNode), ∀ item ∈ leveled n, ¬ item.IsList
  | .node type children => by
    intro item hitem
    by_cases hlist : type = .list
    · subst hlist
      rw [leveled] at hitem
      exact not_isList_of_mem_levelChildren children item hitem
    · have hnot : ¬ (ExprNode.node type children).IsList := hlist
      rw [leveled_of_not_isList hnot] at hitem
      obtain rfl := List.mem_singleton.mp hitem
      exact hlist

theorem not_isList_of_mem_levelChildren :
    ∀ (children : List ExprNode), ∀ item ∈ levelChildren children, ¬ item.IsList
  | [] => fun _ hitem => absurd hitem List.not_mem_nil
  | child :: rest => by
    intro item hitem
    rw [levelChildren, List.mem_append] at hitem
    rcases hitem with h | h
    · exact not_isList_of_mem_leveled child item h
    · exact not_isList_of_mem_levelChildren rest item h

end

def Counted (n : ExprNode) : Prop :=
  1 ≤ (leveled n).length ∧ (n.IsList → 2 ≤ (leveled n).length)

theorem length_le_levelChildren (h : ∀ child ∈ children, Counted child) :
    children.length ≤ (levelChildren children).length := by
  induction children with
  | nil => exact le_refl _
  | cons child rest ih =>
    have hrest := ih (List.forall_mem_cons.mp h).2
    have hchild := (h child List.mem_cons_self).1
    rw [levelChildren, List.length_append, List.length_cons]
    omega

theorem length_levelChildren_iff (h : ∀ child ∈ children, Counted child) :
    (levelChildren children).length = children.length ↔ ∀ child ∈ children, ¬ child.IsList := by
  refine ⟨fun hlength => ?_, fun hlists => by rw [levelChildren_eq_self hlists]⟩
  induction children with
  | nil => exact fun _ hmem => absurd hmem List.not_mem_nil
  | cons child rest ih =>
    have hcounted := (List.forall_mem_cons.mp h).2
    have hrest := length_le_levelChildren hcounted
    obtain ⟨hone, htwo⟩ := h child List.mem_cons_self
    rw [levelChildren, List.length_append, List.length_cons] at hlength
    intro c hc
    rcases List.mem_cons.mp hc with rfl | hc
    · intro hlist
      have := htwo hlist
      omega
    · exact ih hcounted (by omega) c hc

end Levels

section Expressions

namespace Expression

def All (p : Expression → Prop) : Expression → Prop
  | unary op e => p (unary op e) ∧ e.All p
  | binary op l r => p (binary op l r) ∧ l.All p ∧ r.All p
  | tildeEqual l r => p (tildeEqual l r) ∧ l.All p ∧ r.All p
  | conditional c x y => p (conditional c x y) ∧ c.All p ∧ x.All p ∧ y.All p
  | assignment l e => p (assignment l e) ∧ e.All p
  | comma l e => p (comma l e) ∧ l.All p ∧ e.All p
  | paren l => p (paren l) ∧ l.All p
  | call name l => p (call name l) ∧ l.All p
  | e => p e

def isList : Expression → Bool
  | comma .. => true
  | paren l => l.isList
  | unary .identity e => e.isList
  | _ => false

def operands : Expression → List Expression
  | unary .identity e => e.operands
  | unary _ e => [e]
  | binary _ l r => [l, r]
  | conditional c x y => [c, x, y]
  | assignment _ e => [e]
  | _ => []

def items : Expression → List Expression
  | comma l e => l.items ++ [e]
  | e => [e]

end Expression

variable {e l : Expression}

theorem Expression.All.self {p : Expression → Prop} (h : e.All p) : p e := by
  cases e <;> first | exact h.1 | exact h

theorem node_isList_iff (he : e.Parses) : e.node.IsList ↔ e.isList = true := by
  induction e with
  | unary op e ih =>
    cases op with
    | identity => exact ih he.1
    | _ => simp [Expression.node, Expression.isList, ExprNode.IsList, ExprNode.type]
  | tildeEqual l r => exact absurd he id
  | assignment l e =>
    obtain ⟨⟨name, rfl⟩, -⟩ := he
    simp [Expression.node, Expression.isList, ExprNode.IsList, ExprNode.type]
  | paren l ih =>
    rw [Expression.isList, ← ih he, Expression.node, ExprNode.IsList, type_levelChild]
    rfl
  | _ => simp [Expression.node, Expression.isList, ExprNode.IsList, ExprNode.type]

theorem one_le_level (he : e.Parses) (h : ¬ e.node.IsList) : 1 ≤ e.level := by
  cases e with
  | comma => exact absurd rfl h
  | binary op l r => exact le_trans (by decide) op.three_le_level
  | tildeEqual => exact absurd he id
  | _ => simp [Expression.level]

theorem children_node (he : e.Parses) (hlevel : 1 ≤ e.level) :
    e.node.children = e.operands.map Expression.node ∨
      (e.operands = [] ∧ ∀ child ∈ e.node.children, ¬ child.IsList) := by
  induction e with
  | unary op e ih =>
    cases op with
    | identity => exact ih he.1 (le_trans (by decide) he.2)
    | _ => exact Or.inl rfl
  | tildeEqual l r => exact absurd he id
  | assignment l e =>
    obtain ⟨⟨name, rfl⟩, -⟩ := he
    exact Or.inl rfl
  | comma l e => exact absurd hlevel (by simp [Expression.level])
  | paren l =>
    refine Or.inr ⟨rfl, ?_⟩
    rw [Expression.node, children_levelChild]
    exact not_isList_of_mem_levelChildren _
  | call name l =>
    exact Or.inr ⟨rfl, not_isList_of_mem_leveled _⟩
  | _ => exact Or.inl rfl

theorem operands_parse (he : e.Parses) : ∀ x ∈ e.operands, x.Parses ∧ 1 ≤ x.level := by
  induction e with
  | unary op e ih =>
    cases op with
    | identity => exact ih he.1
    | _ =>
      intro x hx
      obtain rfl := List.mem_singleton.mp hx
      exact ⟨he.1, le_trans (by decide) he.2⟩
  | binary op l r =>
    obtain ⟨⟨hl, hll⟩, hr, hrl⟩ := he
    have hop : 1 ≤ op.level := le_trans (by decide) op.three_le_level
    intro x hx
    simp only [Expression.operands, List.mem_cons, List.not_mem_nil, or_false] at hx
    rcases hx with rfl | rfl
    · exact ⟨hl, le_trans hop hll⟩
    · exact ⟨hr, le_trans (Nat.le_add_left 1 _) hrl⟩
  | conditional c x y =>
    obtain ⟨⟨hc, hcl⟩, ⟨hx, hxl⟩, hy, hyl⟩ := he
    intro z hz
    simp only [Expression.operands, List.mem_cons, List.not_mem_nil, or_false] at hz
    rcases hz with rfl | rfl | rfl
    · exact ⟨hc, le_trans (by decide) hcl⟩
    · exact ⟨hx, hxl⟩
    · exact ⟨hy, le_trans (by decide) hyl⟩
  | assignment l e =>
    obtain ⟨-, he, hel⟩ := he
    intro x hx
    obtain rfl := List.mem_singleton.mp hx
    exact ⟨he, le_trans (by decide) hel⟩
  | _ => exact fun x hx => absurd hx (by simp [Expression.operands])

theorem levelChild_node (he : e.Parses) (hlevel : 1 ≤ e.level)
    (h : ∀ x ∈ e.operands, x.isList = false) : levelChild e.node = e.node := by
  refine levelChild_eq_self ?_
  rcases children_node he hlevel with hchildren | ⟨-, hchildren⟩
  · rw [hchildren]
    intro child hchild
    obtain ⟨x, hx, rfl⟩ := List.mem_map.mp hchild
    rw [node_isList_iff (operands_parse he x hx).1, h x hx]
    exact Bool.false_ne_true
  · exact hchildren

end Expressions

end SnapCpp.Expr

import SnapCpp.ExprLists

/-!
How operators are grouped. The documentation writes the grammar without priorities; the tokens of
such an expression have one reading where operators group to the left by their levels, and that is
what is compiled. With parentheses around every operator the reading is compiled to the same node,
unless a list in parentheses is an operand. The operator `?:` groups to the left as well.
-/
namespace SnapCpp.Expr

open SnapCpp.Parser (Token)

section Grouping

/-- The expressions of the grammar as it is documented, where operators have no priorities: lists
with `k = 0`, items with `k = 1` and operands with `k = 2`. A function may have no parameters, an
assignment is an item and its left operand a name, and there is no `~=`. -/
def Expression.Ungrouped : ℕ → Expression → Prop
  | _, .unary _ e => e.Ungrouped 2
  | _, .binary _ l r => l.Ungrouped 2 ∧ r.Ungrouped 2
  | _, .tildeEqual .. => False
  | _, .conditional c x y => c.Ungrouped 2 ∧ x.Ungrouped 1 ∧ y.Ungrouped 2
  | k, .assignment l e => k ≤ 1 ∧ (∃ name, l = .identifier name) ∧ e.Ungrouped 2
  | k, .comma l e => k = 0 ∧ l.Ungrouped 0 ∧ e.Ungrouped 1
  | _, .paren l => l.Ungrouped 0
  | _, .call _ l => l.Ungrouped 0
  | _, _ => True

/-- What stands between two operands that group to the left. -/
inductive Infix where
  | operator (op : BinaryOperation)
  | conditional (x : Expression)

namespace Infix

def level : Infix → ℕ
  | operator op => op.level
  | conditional _ => 2

def tokens : Infix → List Token
  | operator op => [.literal op.symbol]
  | conditional x => word "?" :: (x.tokens ++ [word ":"])

def Parses : Infix → Prop
  | operator _ => True
  | conditional x => x.Parses ∧ 1 ≤ x.level

def between : Infix → Expression → Expression → Expression
  | operator op, l, r => .binary op l r
  | conditional x, l, r => .conditional l x r

variable {i : Infix} {l r : Expression}

@[simp] theorem tokens_between : (i.between l r).tokens = l.tokens ++ i.tokens ++ r.tokens := by
  cases i <;> simp [between, tokens, Expression.tokens]

@[simp] theorem level_between : (i.between l r).level = i.level := by
  cases i <;> rfl

theorem parses_between (hi : i.Parses) (hl : l.Parses) (hll : i.level ≤ l.level) (hr : r.Parses)
    (hrl : i.level + 1 ≤ r.level) : (i.between l r).Parses := by
  cases i with
  | operator op => exact ⟨⟨hl, hll⟩, hr, hrl⟩
  | conditional x => exact ⟨⟨hl, hll⟩, hi, hr, hrl⟩

end Infix

namespace Expression

def push (i : Infix) : Expression → Expression → Expression
  | binary op x y, r =>
      if i.level ≤ op.level then i.between (binary op x y) r else binary op x (y.push i r)
  | conditional c x y, r =>
      if i.level ≤ 2 then i.between (conditional c x y) r else conditional c x (y.push i r)
  | l, r => i.between l r

def join (i : Infix) (l : Expression) : Expression → Expression
  | binary op x y => (l.join i x).push (.operator op) y
  | conditional c x y => (l.join i c).push (.conditional x) y
  | r => l.push i r

def apply (op : UnaryOperation) : Expression → Expression
  | binary op' x y => binary op' (x.apply op) y
  | conditional c x y => conditional (c.apply op) x y
  | e => unary op e

end Expression

def Groups (k : ℕ) (u : List Token) (e : Expression) : Prop :=
  e.Parses ∧ k ≤ e.level ∧ e.tokens = u

variable {i : Infix} {l r e : Expression}

theorem push_groups (hi : i.Parses) (hl : l.Parses) (hll : 2 ≤ l.level) (hr : r.Parses)
    (hrl : i.level + 1 ≤ r.level) :
    Groups (min i.level l.level) (l.tokens ++ i.tokens ++ r.tokens) (l.push i r) := by
  have hbetween : i.level ≤ l.level →
      Groups (min i.level l.level) (l.tokens ++ i.tokens ++ r.tokens) (i.between l r) := by
    intro hle
    exact ⟨Infix.parses_between hi hl hle hr hrl, by simp, by simp⟩
  have hlevel : i.level ≤ 14 := le_trans (Nat.le_succ_of_le (le_refl _)) (le_trans hrl r.level_le)
  induction l with
  | binary op x y _ ih =>
    unfold Expression.push
    split_ifs with hle
    · exact hbetween hle
    · obtain ⟨hx, hy, hyl⟩ := hl
      have hylevel : 2 ≤ y.level := le_trans (le_trans (by decide) op.three_le_level)
        (le_trans (Nat.le_succ _) hyl)
      obtain ⟨hparses, hpush, htokens⟩ := ih hy hylevel fun h =>
        ⟨Infix.parses_between hi hy h hr hrl, by simp, by simp⟩
      refine ⟨⟨hx, hparses, ?_⟩, ?_, ?_⟩
      · omega
      · exact Nat.min_le_right _ _
      · simp [Expression.tokens, htokens]
  | conditional c x y _ _ ih =>
    unfold Expression.push
    split_ifs with hle
    · exact hbetween hle
    · obtain ⟨hc, hx, hy, hyl⟩ := hl
      obtain ⟨hparses, hpush, htokens⟩ := ih hy (le_trans (by decide) hyl) fun h =>
        ⟨Infix.parses_between hi hy h hr hrl, by simp, by simp⟩
      refine ⟨⟨hc, hx, hparses, ?_⟩, ?_, ?_⟩
      · omega
      · exact Nat.min_le_right _ _
      · simp [Expression.tokens, htokens]
  | tildeEqual => exact absurd hl id
  | assignment | comma => exact absurd hll (by simp [Expression.level])
  | _ => exact hbetween hlevel

theorem join_groups (hi : i.Parses) (hil : 2 ≤ i.level) (hil' : i.level < 14) (hl : l.Parses)
    (hll : 2 ≤ l.level) (hr : r.Parses) (hrl : 2 ≤ r.level) :
    Groups 2 (l.tokens ++ i.tokens ++ r.tokens) (l.join i r) := by
  have hpush : 14 ≤ r.level →
      Groups 2 (l.tokens ++ i.tokens ++ r.tokens) (l.push i r) := by
    intro hle
    obtain ⟨hparses, hlevel, htokens⟩ := push_groups hi hl hll hr (le_trans hil' hle)
    exact ⟨hparses, le_trans (le_min hil hll) hlevel, htokens⟩
  induction r with
  | binary op x y ih _ =>
    obtain ⟨⟨hx, hxl⟩, hy, hyl⟩ := hr
    have hop : 2 ≤ op.level := le_trans (by decide) op.three_le_level
    have hpushx : 14 ≤ x.level → Groups 2 (l.tokens ++ i.tokens ++ x.tokens) (l.push i x) := by
      intro hle
      obtain ⟨hparses, hlevel, htokens⟩ := push_groups hi hl hll hx (le_trans hil' hle)
      exact ⟨hparses, le_trans (le_min hil hll) hlevel, htokens⟩
    obtain ⟨hjoin, hjoinl, hjoint⟩ := ih hx (le_trans hop hxl) hpushx
    obtain ⟨hparses, hlevel, htokens⟩ :=
      push_groups (i := .operator op) trivial hjoin hjoinl hy hyl
    refine ⟨hparses, le_trans (le_min hop hjoinl) hlevel, htokens.trans ?_⟩
    simp [hjoint, Expression.tokens, Infix.tokens]
  | conditional c x y ih _ _ =>
    obtain ⟨⟨hc, hcl⟩, hx, hy, hyl⟩ := hr
    have hpushc : 14 ≤ c.level → Groups 2 (l.tokens ++ i.tokens ++ c.tokens) (l.push i c) := by
      intro hle
      obtain ⟨hparses, hlevel, htokens⟩ := push_groups hi hl hll hc (le_trans hil' hle)
      exact ⟨hparses, le_trans (le_min hil hll) hlevel, htokens⟩
    obtain ⟨hjoin, hjoinl, hjoint⟩ := ih hc hcl hpushc
    obtain ⟨hparses, hlevel, htokens⟩ :=
      push_groups (i := .conditional x) hx hjoin hjoinl hy hyl
    refine ⟨hparses, le_trans (le_min (le_refl 2) hjoinl) hlevel, htokens.trans ?_⟩
    simp [hjoint, Expression.tokens, Infix.tokens]
  | tildeEqual => exact absurd hr id
  | assignment | comma => exact absurd hrl (by simp [Expression.level])
  | _ => exact hpush (le_refl 14)

theorem apply_groups (op : UnaryOperation) (he : e.Parses) (hel : 2 ≤ e.level) :
    Groups e.level (.literal op.symbol :: e.tokens) (e.apply op) := by
  induction e with
  | binary op' x y ih _ =>
    obtain ⟨⟨hx, hxl⟩, hy⟩ := he
    have hop : 2 ≤ op'.level := le_trans (by decide) op'.three_le_level
    obtain ⟨hparses, hlevel, htokens⟩ := ih hx (le_trans hop hxl)
    refine ⟨⟨⟨hparses, le_trans hxl hlevel⟩, hy⟩, le_refl _, ?_⟩
    simp [Expression.apply, Expression.tokens, htokens]
  | conditional c x y ih _ _ =>
    obtain ⟨⟨hc, hcl⟩, hx⟩ := he
    obtain ⟨hparses, hlevel, htokens⟩ := ih hc hcl
    refine ⟨⟨⟨hparses, le_trans hcl hlevel⟩, hx⟩, le_refl _, ?_⟩
    simp [Expression.apply, Expression.tokens, htokens]
  | tildeEqual => exact absurd he id
  | assignment | comma => exact absurd hel (by simp [Expression.level])
  | _ => exact ⟨⟨he, le_refl 14⟩, le_refl 14, rfl⟩

theorem Expression.Ungrouped.exists_groups {k : ℕ} (h : e.Ungrouped k) (hk : k ≤ 2) :
    ∃ e', Groups k e.tokens e' := by
  have hprimary : ∀ {m : ℕ}, m ≤ 2 → m ≤ 14 := fun h => le_trans h (by decide)
  induction e generalizing k with
  | unary op e ih =>
    obtain ⟨e', he', hlevel, htokens⟩ := ih h (le_refl 2)
    obtain ⟨hparses, happly, htokens'⟩ := apply_groups op he' hlevel
    refine ⟨e'.apply op, hparses, le_trans hk (le_trans hlevel happly), ?_⟩
    rw [htokens', htokens]
    rfl
  | binary op l r ihl ihr =>
    obtain ⟨l', hl, hll, hlt⟩ := ihl h.1 (le_refl 2)
    obtain ⟨r', hr, hrl, hrt⟩ := ihr h.2 (le_refl 2)
    have hop : 2 ≤ op.level := le_trans (by decide) op.three_le_level
    obtain ⟨hparses, hlevel, htokens⟩ :=
      join_groups (i := .operator op) trivial hop op.level_lt hl hll hr hrl
    refine ⟨l'.join (.operator op) r', hparses, le_trans hk hlevel, ?_⟩
    rw [htokens, hlt, hrt]
    simp [Infix.tokens, Expression.tokens]
  | tildeEqual l r => exact absurd h id
  | conditional c x y ihc ihx ihy =>
    obtain ⟨c', hc, hcl, hct⟩ := ihc h.1 (le_refl 2)
    obtain ⟨x', hx, hxl, hxt⟩ := ihx h.2.1 (by decide)
    obtain ⟨y', hy, hyl, hyt⟩ := ihy h.2.2 (le_refl 2)
    obtain ⟨hparses, hlevel, htokens⟩ :=
      join_groups (i := .conditional x') ⟨hx, hxl⟩ (le_refl 2) (by simp [Infix.level]) hc hcl hy hyl
    refine ⟨c'.join (.conditional x') y', hparses, le_trans hk hlevel, ?_⟩
    rw [htokens, hct, hyt]
    simp [Infix.tokens, Expression.tokens, hxt]
  | assignment l e _ ihe =>
    obtain ⟨hone, ⟨name, rfl⟩, he⟩ := h
    obtain ⟨e', he', hlevel, htokens⟩ := ihe he (le_refl 2)
    refine ⟨.assignment (.identifier name) e', ⟨⟨name, rfl⟩, he', hlevel⟩, hone, ?_⟩
    simp [Expression.tokens, htokens]
  | comma l e ihl ihe =>
    obtain ⟨rfl, hl, he⟩ := h
    obtain ⟨l', hl', -, hlt⟩ := ihl hl (by decide)
    obtain ⟨e', he', hel, het⟩ := ihe he (by decide)
    refine ⟨.comma l' e', ⟨hl', he', hel⟩, Nat.zero_le _, ?_⟩
    simp [Expression.tokens, hlt, het]
  | paren l ih =>
    obtain ⟨l', hl', -, hlt⟩ := ih h (by decide)
    exact ⟨.paren l', hl', hprimary hk, by simp [Expression.tokens, hlt]⟩
  | call name l ih =>
    obtain ⟨l', hl', -, hlt⟩ := ih h (by decide)
    exact ⟨.call name l', hl', hprimary hk, by simp [Expression.tokens, hlt]⟩
  | identifier name => exact ⟨.identifier name, trivial, hprimary hk, rfl⟩
  | boolean value => exact ⟨.boolean value, trivial, hprimary hk, rfl⟩
  | string value => exact ⟨.string value, trivial, hprimary hk, rfl⟩
  | integer value => exact ⟨.integer value, trivial, hprimary hk, rfl⟩
  | floatingPoint text => exact ⟨.floatingPoint text, trivial, hprimary hk, rfl⟩
  | callEmpty name => exact ⟨.callEmpty name, trivial, hprimary hk, rfl⟩

theorem Expression.Parses.ungrouped {k : ℕ} (h : e.Parses) (hk : k ≤ 2) (hlevel : k ≤ e.level) :
    e.Ungrouped k := by
  induction e generalizing k with
  | unary op e ih => exact ih h.1 (le_refl 2) (le_trans (by decide) h.2)
  | binary op l r ihl ihr =>
    have hop : 2 ≤ op.level := le_trans (by decide) op.three_le_level
    exact ⟨ihl h.1.1 (le_refl 2) (le_trans hop h.1.2),
      ihr h.2.1 (le_refl 2) (le_trans (Nat.le_succ_of_le hop) h.2.2)⟩
  | tildeEqual l r => exact absurd h id
  | conditional c x y ihc ihx ihy =>
    obtain ⟨⟨hc, hcl⟩, ⟨hx, hxl⟩, hy, hyl⟩ := h
    exact ⟨ihc hc (le_refl 2) hcl, ihx hx (by decide) hxl,
      ihy hy (le_refl 2) (le_trans (by decide) hyl)⟩
  | assignment l e _ ihe => exact ⟨hlevel, h.1, ihe h.2.1 (le_refl 2) h.2.2⟩
  | comma l e ihl ihe =>
    exact ⟨Nat.le_zero.mp hlevel, ihl h.1 (by decide) (Nat.zero_le _),
      ihe h.2.1 (by decide) h.2.2⟩
  | paren l ih => exact ih h (by decide) (Nat.zero_le _)
  | call name l ih => exact ih h (by decide) (Nat.zero_le _)
  | _ => exact trivial

end Grouping

section Parentheses

namespace Expression

def full : Expression → Expression
  | unary op e => paren (unary op e.full)
  | binary op l r => paren (binary op l.full r.full)
  | tildeEqual l r => paren (tildeEqual l.full r.full)
  | conditional c x y => paren (conditional c.full x.full y.full)
  | assignment l e => paren (assignment l.full e.full)
  | comma l e => comma l.full e.full
  | paren l => paren l.full
  | call name l => call name l.full
  | e => e

def SingleOperands (e : Expression) : Prop :=
  e.All fun x => ∀ y ∈ x.operands, y.isList = false

end Expression

variable {e : Expression}

theorem level_full (h : 1 ≤ e.level) : e.full.level = 14 := by
  cases e with
  | comma => exact absurd h (by simp [Expression.level])
  | _ => rfl

theorem parses_full (he : e.Parses) : e.full.Parses := by
  induction e with
  | unary op e ih => exact ⟨ih he.1, (level_full (le_trans (by decide) he.2)).ge⟩
  | binary op l r ihl ihr =>
    have hop : 1 ≤ op.level := le_trans (by decide) op.three_le_level
    refine ⟨⟨ihl he.1.1, ?_⟩, ihr he.2.1, ?_⟩
    · rw [level_full (le_trans hop he.1.2)]
      exact op.level_lt.le
    · rw [level_full (le_trans (Nat.le_succ_of_le hop) he.2.2)]
      exact op.level_lt
  | tildeEqual l r => exact absurd he id
  | conditional c x y ihc ihx ihy =>
    obtain ⟨⟨hc, hcl⟩, ⟨hx, hxl⟩, hy, hyl⟩ := he
    refine ⟨⟨ihc hc, ?_⟩, ⟨ihx hx, ?_⟩, ihy hy, ?_⟩
    · rw [level_full (le_trans (by decide) hcl)]
      decide
    · rw [level_full hxl]
      decide
    · rw [level_full (le_trans (by decide) hyl)]
      decide
  | assignment l e _ ihe =>
    obtain ⟨⟨name, rfl⟩, he, hel⟩ := he
    refine ⟨⟨name, rfl⟩, ihe he, ?_⟩
    rw [level_full (le_trans (by decide) hel)]
    decide
  | comma l e ihl ihe =>
    refine ⟨ihl he.1, ihe he.2.1, ?_⟩
    rw [level_full he.2.2]
    decide
  | paren l ih => exact ih he
  | call name l ih => exact ih he
  | _ => exact he

theorem node_full (he : e.Parses) (h : e.SingleOperands) : e.full.node = e.node := by
  induction e with
  | unary op e ih =>
    have hlevel := levelChild_node (e := .unary op e) he (Nat.le_add_left 1 13) h.self
    rw [← hlevel]
    change levelChild _ = levelChild _
    cases op <;> simp only [Expression.node, ih he.1 h.2]
  | binary op l r ihl ihr =>
    have hop : 1 ≤ op.level := le_trans (by decide) op.three_le_level
    have hlevel := levelChild_node (e := .binary op l r) he hop h.self
    rw [← hlevel]
    change levelChild _ = levelChild _
    simp only [Expression.node, ihl he.1.1 h.2.1, ihr he.2.1 h.2.2]
  | tildeEqual l r => exact absurd he id
  | conditional c x y ihc ihx ihy =>
    have hlevel := levelChild_node (e := .conditional c x y) he (Nat.le_succ 1) h.self
    rw [← hlevel]
    change levelChild _ = levelChild _
    simp only [Expression.node, ihc he.1.1 h.2.1, ihx he.2.1.1 h.2.2.1, ihy he.2.2.1 h.2.2.2]
  | assignment l e _ ihe =>
    have hlevel := levelChild_node (e := .assignment l e) he (le_refl 1) h.self
    rw [← hlevel]
    obtain ⟨⟨name, rfl⟩, he, hel⟩ := he
    change levelChild _ = levelChild _
    simp only [Expression.full, Expression.node, ihe he h.2]
  | comma l e ihl ihe =>
    simp only [Expression.full, Expression.node, ihl he.1 h.2.1, ihe he.2.1 h.2.2]
  | paren l ih => simp only [Expression.full, Expression.node, ih he h.2]
  | call name l ih => simp only [Expression.full, Expression.node, ih he h.2]
  | _ => rfl

end Parentheses

/-- An expression without priorities has one reading, whose node is compiled, with and without the
parentheses around its operators where no operand is a list. What is neither such an expression
nor a list of them is compiled to no node. -/
theorem compile_groups :
    (∀ e : Expression, e.Ungrouped 1 →
      ∃ e', Groups 1 e.tokens e' ∧ (∀ e'', Groups 1 e.tokens e'' → e'' = e') ∧
        Compiles e.tokens (some e'.node) ∧
        (e'.SingleOperands → Compiles e'.full.tokens (some e'.node))) ∧
    ∀ u : List Token, (∀ e : Expression, e.Ungrouped 0 → e.tokens ≠ u) → Compiles u none := by
  constructor
  · intro e h
    obtain ⟨e', he', hlevel, htokens⟩ := h.exists_groups (by decide)
    refine ⟨e', ⟨he', hlevel, htokens⟩, ?_, ?_, ?_⟩
    · rintro e'' ⟨he'', hlevel'', htokens''⟩
      exact tokens_inj he'' he' hlevel'' hlevel (htokens''.trans htokens.symm)
    · rw [← htokens]
      exact compiles_tokens he' hlevel
    · intro hsingle
      have hfull := compiles_tokens (parses_full he') (by rw [level_full hlevel]; decide)
      rwa [node_full he' hsingle] at hfull
  · intro u h
    exact compiles_none fun e he _ => h e (he.ungrouped (by decide) (Nat.zero_le _))

/-- `1 + 2 * 3`, grouped from left to right and by the priorities. -/
theorem compile_groups_product :
    Compiles (Expression.binary .multiply (.binary .add (.integer 1) (.integer 2))
        (.integer 3)).tokens
      (some (Expression.binary .add (.integer 1) (.binary .multiply (.integer 2)
        (.integer 3))).node) := by
  obtain ⟨e', -, hunique, hcompiles, -⟩ := compile_groups.1
    (.binary .multiply (.binary .add (.integer 1) (.integer 2)) (.integer 3))
    ⟨⟨trivial, trivial⟩, trivial⟩
  have hgroups : Groups 1 (Expression.binary .multiply
      (.binary .add (.integer 1) (.integer 2)) (.integer 3)).tokens
      (.binary .add (.integer 1) (.binary .multiply (.integer 2) (.integer 3))) :=
    ⟨⟨⟨trivial, by decide⟩, ⟨⟨trivial, by decide⟩, trivial, by decide⟩, by decide⟩, by decide, rfl⟩
  rwa [← hunique _ hgroups] at hcompiles

/-- The operands as C groups them: `?:` groups to the right. -/
def Expression.ReadsAsC : Expression → Prop
  | .unary _ e => e.ReadsAsC ∧ 14 ≤ e.level
  | .binary op l r => (l.ReadsAsC ∧ op.level ≤ l.level) ∧ r.ReadsAsC ∧ op.level + 1 ≤ r.level
  | .tildeEqual l r => (l.ReadsAsC ∧ 10 ≤ l.level) ∧ r.ReadsAsC ∧ 11 ≤ r.level
  | .conditional c x y =>
      (c.ReadsAsC ∧ 3 ≤ c.level) ∧ (x.ReadsAsC ∧ 1 ≤ x.level) ∧ y.ReadsAsC ∧ 2 ≤ y.level
  | .assignment l e => (l.ReadsAsC ∧ 2 ≤ l.level) ∧ e.ReadsAsC ∧ 1 ≤ e.level
  | .comma l e => l.ReadsAsC ∧ e.ReadsAsC ∧ 1 ≤ e.level
  | .paren l => l.ReadsAsC
  | .call _ l => l.ReadsAsC
  | .callEmpty _ => False
  | _ => True

/-- `1 ? 2 : 3 ? 4 : 5` as C reads it. -/
def nestedConditional : Expression :=
  .conditional (.integer 1) (.integer 2) (.conditional (.integer 3) (.integer 4) (.integer 5))

/-- The condition is compiled to another node than its C reading with parentheses. -/
theorem nestedConditional_groups : nestedConditional.ReadsAsC ∧
    ¬ ∃ node, Compiles nestedConditional.tokens (some node) ∧
      Compiles nestedConditional.full.tokens (some node) := by
  refine ⟨⟨⟨trivial, by decide⟩, ⟨trivial, by decide⟩,
    ⟨⟨trivial, by decide⟩, ⟨trivial, by decide⟩, trivial, by decide⟩, by decide⟩, ?_⟩
  rintro ⟨node, hnode, hfull⟩
  let grouped : Expression := .conditional (.conditional (.integer 1) (.integer 2) (.integer 3))
    (.integer 4) (.integer 5)
  have hgrouped : grouped.Parses :=
    ⟨⟨⟨⟨trivial, by decide⟩, ⟨trivial, by decide⟩, trivial, by decide⟩, by decide⟩,
      ⟨trivial, by decide⟩, trivial, by decide⟩
  have hleft : Compiles nestedConditional.tokens (some grouped.node) :=
    compiles_tokens hgrouped (by decide)
  have hright : Compiles nestedConditional.full.tokens (some nestedConditional.full.node) :=
    compiles_tokens ⟨⟨trivial, by decide⟩, ⟨trivial, by decide⟩,
      ⟨⟨trivial, by decide⟩, ⟨trivial, by decide⟩, trivial, by decide⟩, by decide⟩ (by decide)
  have heq := (hleft.unique hnode).trans (hfull.unique hright)
  simp [grouped, nestedConditional, Expression.full, Expression.node, levelChild, levelChildren,
    leveled] at heq

end SnapCpp.Expr

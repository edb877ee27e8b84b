import SnapCpp.QString

/-!
The grammars of the parser: the tokens of the lexer, rules made of items, and choices of rules.
A sequence of items derives trees whose leaves are tokens. A rule may start with its own choices,
which is the left recursion that the parser follows when it reduces.
-/
namespace SnapCpp.Parser

inductive Token where
  | integer (value : UInt64)
  | floatingPoint (text : QString)
  | identifier (name : QString)
  | keyword (number : ℕ)
  | string (value : QString)
  | literal (value : QString)
deriving DecidableEq

/-- `rule_data_t`. -/
inductive Item (C : Type) where
  | integer
  | floatingPoint
  | identifier
  | keyword (number : ℕ)
  | string
  | literal (value : QString)
  | empty
  | choices (c : C)
deriving DecidableEq

def Item.accepts {C : Type} : Item C → Token → Bool
  | integer, .integer _ => true
  | floatingPoint, .floatingPoint _ => true
  | identifier, .identifier _ => true
  | keyword number, .keyword n => n == number
  | string, .string _ => true
  | literal value, .literal v => v == value
  | _, _ => false

structure Rule (C : Type) where
  first : Item C
  rest : List (Item C)
deriving DecidableEq

def Rule.items {C : Type} (r : Rule C) : List (Item C) := r.first :: r.rest

structure Grammar (C : Type) where
  rules : C → List (Rule C)
  noSelf : ∀ c, ∀ r ∈ rules c, r.items ≠ [.choices c]

/-- `token_node`: the tokens of a rule, where a node is the result of other choices. -/
inductive Tree (C : Type) where
  | token (t : Token)
  | empty
  | node (c : C) (rule : ℕ) (tokens : List (Tree C))

namespace Tree

variable {C : Type}

mutual

def leaves : Tree C → List Token
  | token t => [t]
  | empty => []
  | node _ _ tokens => leavesAll tokens

def leavesAll : List (Tree C) → List Token
  | [] => []
  | t :: rest => leaves t ++ leavesAll rest

end

end Tree

section Derivations

variable {C : Type} (G : Grammar C)

inductive Derives : List (Item C) → List (Tree C) → List Token → Prop
  | nil : Derives [] [] []
  | token {item : Item C} {items : List (Item C)} {t : Token} {ts : List (Tree C)}
      {u : List Token} : item.accepts t → Derives items ts u →
      Derives (item :: items) (.token t :: ts) (t :: u)
  | empty {items : List (Item C)} {ts : List (Tree C)} {u : List Token} :
      Derives items ts u → Derives (.empty :: items) (.empty :: ts) u
  | choices {c : C} {i : ℕ} {r : Rule C} {items : List (Item C)} {tokens ts : List (Tree C)}
      {v u : List Token} : (G.rules c)[i]? = some r → Derives r.items tokens v →
      Derives items ts u → Derives (.choices c :: items) (.node c i tokens :: ts) (v ++ u)

def Derivable (items : List (Item C)) (u : List Token) : Prop := ∃ ts, Derives G items ts u

def LeftCorner (c d : C) : Prop :=
  ∃ r ∈ G.rules c, ∃ front back, r.items = front ++ .choices d :: back ∧
    Derivable G front [] ∧ ¬ (front = [] ∧ d = c)

/-- No choices are followed by themselves on their left, but at the start of their own rule. -/
def OnlyDirect : Prop := ∀ c, ¬ Relation.TransGen (LeftCorner G) c c

/-- What comes after the choices at the start of their own rule derives a token at least. -/
def Advancing : Prop :=
  ∀ c, ∀ r ∈ G.rules c, r.first = .choices c → ¬ Derivable G r.rest []

variable {G} {items more : List (Item C)} {ts us : List (Tree C)} {u v : List Token}

theorem Derives.append (h : Derives G items ts u) (h' : Derives G more us v) :
    Derives G (items ++ more) (ts ++ us) (u ++ v) := by
  induction h with
  | nil => exact h'
  | token haccepts _ ih => exact Derives.token haccepts ih
  | empty _ ih => exact Derives.empty ih
  | choices hrule hitems _ _ ih =>
    rw [List.append_assoc]
    exact Derives.choices hrule hitems ih

theorem Derives.eq_nil (h : Derives G items ts u) : items = [] → ts = [] ∧ u = [] := by
  rintro rfl
  cases h
  exact ⟨rfl, rfl⟩

theorem Derives.leaves (h : Derives G items ts u) : Tree.leavesAll ts = u := by
  induction h with
  | nil => rfl
  | token _ _ ih => simp [Tree.leavesAll, Tree.leaves, ih]
  | empty _ ih => simp [Tree.leavesAll, Tree.leaves, ih]
  | choices _ _ _ ihitems ih => simp [Tree.leavesAll, Tree.leaves, ihitems, ih]

theorem Derives.node {c : C} {i : ℕ} {r : Rule C} (hrule : (G.rules c)[i]? = some r)
    (h : Derives G r.items ts u) : Derives G [.choices c] [.node c i ts] u := by
  simpa using Derives.choices hrule h Derives.nil

theorem Grammar.rest_ne_nil {c : C} {r : Rule C} (hr : r ∈ G.rules c)
    (hfirst : r.first = .choices c) : r.rest ≠ [] := by
  intro hrest
  exact G.noSelf c r hr (by rw [Rule.items, hfirst, hrest])

theorem OnlyDirect.wellFounded [Finite C] (h : OnlyDirect G) :
    WellFounded (fun d c => LeftCorner G c d) := by
  have htrans : IsTrans C (Function.swap (Relation.TransGen (LeftCorner G))) :=
    ⟨fun _ _ _ hba hcb => Relation.TransGen.trans hcb hba⟩
  have hirrefl : Std.Irrefl (Function.swap (Relation.TransGen (LeftCorner G))) := ⟨h⟩
  have hwf := Finite.wellFounded_of_trans_of_irrefl
    (Function.swap (Relation.TransGen (LeftCorner G)))
  exact Subrelation.wf (fun hcorner => Relation.TransGen.single hcorner) hwf

variable (G) in
def Solid : Prop := ∀ c, ∀ r ∈ G.rules c, .empty ∉ r.items

theorem Solid.ne_nil (hsolid : Solid G) (h : Derives G items ts u) (hempty : .empty ∉ items)
    (hitems : items ≠ []) : u ≠ [] := by
  induction h with
  | nil => exact absurd rfl hitems
  | token => exact List.cons_ne_nil _ _
  | empty => exact absurd List.mem_cons_self hempty
  | @choices c i r items tokens ts v u hrule _ _ ihtokens _ =>
    have hv : v ≠ [] :=
      ihtokens (hsolid c r (List.mem_of_getElem? hrule)) (List.cons_ne_nil _ _)
    exact List.append_ne_nil_of_left_ne_nil hv u

theorem Solid.advancing (hsolid : Solid G) : Advancing G := by
  rintro c r hr hfirst ⟨ts, hts⟩
  have hempty : .empty ∉ r.rest := fun h => hsolid c r hr (List.mem_cons_of_mem _ h)
  exact hsolid.ne_nil hts hempty (Grammar.rest_ne_nil hr hfirst) rfl

theorem Solid.first_of_leftCorner {c d : C} (hsolid : Solid G) (h : LeftCorner G c d) :
    d ≠ c ∧ ∃ r ∈ G.rules c, r.first = .choices d := by
  obtain ⟨r, hr, front, back, heq, ⟨ts, hts⟩, hself⟩ := h
  have hempty : .empty ∉ front := fun h =>
    hsolid c r hr (heq ▸ List.mem_append_left _ h)
  cases front with
  | nil => exact ⟨fun hd => hself ⟨rfl, hd⟩, r, hr, (List.cons.inj heq).1⟩
  | cons item front => exact absurd rfl (hsolid.ne_nil hts hempty (List.cons_ne_nil _ _))

theorem Solid.onlyDirect (hsolid : Solid G) (rank : C → ℕ)
    (h : ∀ c, ∀ r ∈ G.rules c, ∀ d, r.first = .choices d → d ≠ c → rank d < rank c) :
    OnlyDirect G := by
  have hrank : ∀ c d, Relation.TransGen (LeftCorner G) c d → rank d < rank c := by
    intro c d hcd
    induction hcd with
    | single hcorner =>
      obtain ⟨hne, r, hr, hfirst⟩ := hsolid.first_of_leftCorner hcorner
      exact h _ r hr _ hfirst hne
    | tail _ hcorner ih =>
      obtain ⟨hne, r, hr, hfirst⟩ := hsolid.first_of_leftCorner hcorner
      exact lt_trans (h _ r hr _ hfirst hne) ih
  exact fun c hc => lt_irrefl _ (hrank c c hc)

end Derivations

end SnapCpp.Parser

import SnapCpp.ParserForest
import SnapCpp.ParserRuns

/-!
The states in memory run as the stacks do. A state stands for the stack of itself and its parents.
A current state has no children, so what is done to it changes no other stack; a parent is changed
in its place only when the state that is reduced was its only child. States that were freed are in
no stack.
-/
namespace SnapCpp.Parser

variable {C : Type}

/-- A state but for its children. -/
def ParserState.data (state : ParserState C) : ParserState C := { state with fChildren := [] }

theorem ParserState.fields {a b : ParserState C} (h : a.data = b) : a.fParent = b.fParent ∧
    a.fChoices = b.fChoices ∧ a.fRule = b.fRule ∧ a.fPosition = b.fPosition ∧
    a.fNode = b.fNode := by
  subst h
  exact ⟨rfl, rfl, rfl, rfl, rfl⟩

def Stack.depth : Stack C → ℕ
  | .frame _ parent => parent.depth + 1
  | _ => 0

namespace Forest

/-- A state that is in use. -/
def Live (heap : ℕ → ParserState C) (x : ℕ) : Prop := (heap x).fChoices ≠ none

/-- Parents and children know each other, and states that are not in use neither have nor are
children. -/
structure Linked (w : Forest C) : Prop where
  links : ∀ x p, (w.heap x).fParent = some p ↔ x ∈ (w.heap p).fChildren
  nodup : ∀ p, (w.heap p).fChildren.Nodup
  dead : ∀ x, ¬ Live w.heap x → (w.heap x).fParent = none ∧ (w.heap x).fChildren = []
  made : ∀ x, Live w.heap x → x < w.next
  freed : ∀ x ∈ w.freeStates, x < w.next ∧ ¬ Live w.heap x
  freedOnce : w.freeStates.Nodup

section Operations

variable {w w' u : Forest C} {x y s p : ℕ}

@[simp] theorem modify_current (f : ParserState C → ParserState C) :
    (w.modify s f).current = w.current := rfl

@[simp] theorem modify_next (f : ParserState C → ParserState C) :
    (w.modify s f).next = w.next := rfl

@[simp] theorem modify_freeStates (f : ParserState C → ParserState C) :
    (w.modify s f).freeStates = w.freeStates := rfl

@[simp] theorem modify_heap_self (f : ParserState C → ParserState C) :
    (w.modify s f).heap s = f (w.heap s) := Function.update_self ..

theorem modify_heap_of_ne (f : ParserState C → ParserState C) (h : y ≠ s) :
    (w.modify s f).heap y = w.heap y := Function.update_of_ne h ..

theorem adopt_heap (parent : Option ℕ) : (w.adopt parent s).heap y =
    { w.heap y with
      fChildren := (w.heap y).fChildren ++ if parent = some y then [s] else [] } := by
  cases parent with
  | none => simp [adopt]
  | some p =>
    by_cases h : y = p
    · subst h
      simp [adopt]
    · rw [adopt, modify_heap_of_ne _ h, if_neg (fun heq => h (Option.some.inj heq).symm)]
      simp

/-- The position and the node of a state are changed. -/
theorem Linked.modify (h : Linked w) {f : ParserState C → ParserState C}
    (hparent : (f (w.heap s)).fParent = (w.heap s).fParent)
    (hchildren : (f (w.heap s)).fChildren = (w.heap s).fChildren)
    (hchoices : (f (w.heap s)).fChoices = (w.heap s).fChoices) : Linked (w.modify s f) := by
  have hsame : ∀ y, ((w.modify s f).heap y).fParent = (w.heap y).fParent ∧
      ((w.modify s f).heap y).fChildren = (w.heap y).fChildren ∧
      (Live (w.modify s f).heap y ↔ Live w.heap y) := by
    intro y
    unfold Live
    by_cases hy : y = s
    · subst hy
      rw [modify_heap_self, hparent, hchildren, hchoices]
      exact ⟨rfl, rfl, Iff.rfl⟩
    · rw [modify_heap_of_ne f hy]
      exact ⟨rfl, rfl, Iff.rfl⟩
  refine ⟨fun x p => ?_, fun p => ?_, fun x hx => ?_, fun x hx => h.made x ((hsame x).2.2.mp hx),
    fun x hx => ⟨(h.freed x hx).1, fun hlive => (h.freed x hx).2 ((hsame x).2.2.mp hlive)⟩,
    h.freedOnce⟩
  · rw [(hsame x).1, (hsame p).2.1]
    exact h.links x p
  · rw [(hsame p).2.1]
    exact h.nodup p
  · rw [(hsame x).1, (hsame x).2.1]
    exact h.dead x (fun hlive => hx ((hsame x).2.2.mpr hlive))

/-- A state that was not in use, before its parent knows it. -/
structure Taken (w u : Forest C) (x : ℕ) (state : ParserState C) : Prop where
  dead : ¬ Live w.heap x
  heap : u.heap = Function.update w.heap x state
  current : u.current = w.current
  next : w.next ≤ u.next
  made : x < u.next
  free : ∀ y ∈ u.freeStates, y ∈ w.freeStates ∧ y ≠ x
  once : u.freeStates.Nodup

theorem alloc_taken (h : Linked w) (parent : Option ℕ) (c : Choices C) (rule : ℕ) :
    ∃ x u, w.alloc parent c rule = (x, u.adopt parent x) ∧
      Taken w u x { fParent := parent, fChoices := some c, fRule := rule } := by
  unfold alloc
  cases hlast : w.freeStates.getLast? with
  | none =>
    exact ⟨w.next, _, rfl, fun hlive => lt_irrefl _ (h.made _ hlive), rfl, rfl, Nat.le_succ _,
      Nat.lt_succ_self _, fun y hy => ⟨hy, Nat.ne_of_lt (h.freed y hy).1⟩, h.freedOnce⟩
  | some x =>
    obtain ⟨front, hfront⟩ := List.getLast?_eq_some_iff.mp hlast
    have hmem : x ∈ w.freeStates := by rw [hfront]; simp
    have hchildren := (h.dead x (h.freed x hmem).2).2
    have honce := h.freedOnce
    rw [hfront, List.nodup_append] at honce
    refine ⟨x, _, rfl, (h.freed x hmem).2, ?_, rfl, le_rfl, (h.freed x hmem).1, fun y hy => ?_, ?_⟩
    · simp only [Forest.modify, hchildren]
    · have hy' : y ∈ front := by simpa [hfront] using hy
      refine ⟨by rw [hfront]; exact List.mem_append_left _ hy', ?_⟩
      rintro rfl
      exact honce.2.2 y hy' y (List.mem_singleton_self y) rfl
    · simpa [hfront] using honce.1

section Adopting

variable {state : ParserState C} (ht : Taken w u x state)
  (hparent : ∀ p, state.fParent = some p → Live w.heap p)
include ht

theorem Taken.others (hy : y ≠ x) : (u.adopt state.fParent x).heap y = { w.heap y with
    fChildren := (w.heap y).fChildren ++ if state.fParent = some y then [x] else [] } := by
  rw [adopt_heap, ht.heap, Function.update_of_ne hy]

include hparent

theorem Taken.parent_ne (hp : state.fParent = some p) : p ≠ x := by
  rintro rfl
  exact ht.dead (hparent p hp)

theorem Taken.self : (u.adopt state.fParent x).heap x = state := by
  rw [adopt_heap, ht.heap, Function.update_self,
    if_neg (fun hp => ht.parent_ne hparent hp rfl), List.append_nil]

/-- The parent and its new child know each other. -/
theorem Taken.linked (h : Linked w) (hempty : state.fChildren = [])
    (hchoices : state.fChoices ≠ none) : Linked (u.adopt state.fParent x) := by
  have hself := ht.self hparent
  have hnext : (u.adopt state.fParent x).next = u.next := by cases state.fParent <;> rfl
  have hfree : (u.adopt state.fParent x).freeStates = u.freeStates := by
    cases state.fParent <;> rfl
  have hnoChild : ∀ p, x ∉ (w.heap p).fChildren := fun p hp => by
    have hparent := (h.links x p).mpr hp
    rw [(h.dead x ht.dead).1] at hparent
    cases hparent
  refine ⟨fun a b => ?_, fun b => ?_, fun a ha => ?_, fun a ha => ?_, fun a ha => ?_, ?_⟩
  · by_cases ha : a = x
    · subst ha
      rw [hself]
      by_cases hb : b = a
      · subst hb
        rw [hself, hempty]
        exact ⟨fun hp => absurd rfl (ht.parent_ne hparent hp),
          fun hmem => absurd hmem List.not_mem_nil⟩
      · rw [ht.others hb, List.mem_append]
        constructor
        · intro hp
          rw [if_pos hp]
          exact Or.inr (List.mem_singleton_self a)
        · rintro (hmem | hmem)
          · exact absurd hmem (hnoChild b)
          · split_ifs at hmem with hp
            · exact hp
            · cases hmem
    · rw [ht.others ha]
      by_cases hb : b = x
      · subst hb
        rw [hself, hempty]
        refine ⟨fun hp => ?_, fun hmem => absurd hmem List.not_mem_nil⟩
        have hmem := (h.links a b).mp hp
        rw [(h.dead b ht.dead).2] at hmem
        cases hmem
      · rw [ht.others hb, List.mem_append]
        refine (h.links a b).trans ⟨Or.inl, ?_⟩
        rintro (hmem | hmem)
        · exact hmem
        · split_ifs at hmem with hp
          · exact absurd (List.mem_singleton.mp hmem) ha
          · cases hmem
  · by_cases hb : b = x
    · subst hb
      rw [hself, hempty]
      exact List.nodup_nil
    · rw [ht.others hb]
      refine List.Nodup.append (h.nodup b) (by split_ifs <;> simp) ?_
      intro z hz hz'
      split_ifs at hz'
      · rw [List.mem_singleton.mp hz'] at hz
        exact hnoChild b hz
      · cases hz'
  · have hax : a ≠ x := by
      rintro rfl
      exact ha (by rwa [Live, hself])
    rw [Live, ht.others hax] at ha
    rw [ht.others hax, if_neg (fun hp => ha (hparent a hp)), List.append_nil]
    exact h.dead a ha
  · rw [hnext]
    by_cases hax : a = x
    · exact hax ▸ ht.made
    · rw [Live, ht.others hax] at ha
      exact lt_of_lt_of_le (h.made a ha) ht.next
  · rw [hfree] at ha
    obtain ⟨hmem, hax⟩ := ht.free a ha
    rw [hnext, Live, ht.others hax]
    exact ⟨lt_of_lt_of_le (h.freed a hmem).1 ht.next, (h.freed a hmem).2⟩
  · rw [hfree]
    exact ht.once

end Adopting

/-- What `alloc()` does: a state that was not in use is made a child of the parent. -/
structure Allocated (w w' : Forest C) (x : ℕ) (parent : Option ℕ) (c : Choices C) (rule : ℕ) :
    Prop where
  linked : Linked w'
  dead : ¬ Live w.heap x
  current : w'.current = w.current
  state : w'.heap x = { fParent := parent, fChoices := some c, fRule := rule }
  others : ∀ y ≠ x, w'.heap y = { w.heap y with
    fChildren := (w.heap y).fChildren ++ if parent = some y then [x] else [] }

theorem allocated (h : Linked w) (parent : Option ℕ)
    (hparent : ∀ p, parent = some p → Live w.heap p)
    (c : Choices C) (rule : ℕ) :
    Allocated w (w.alloc parent c rule).2 (w.alloc parent c rule).1 parent c rule := by
  obtain ⟨x, u, halloc, ht⟩ := alloc_taken h parent c rule
  have hcurrent : (u.adopt parent x).current = w.current := by
    cases parent <;> exact ht.current
  rw [halloc]
  exact ⟨ht.linked hparent h rfl (Option.some_ne_none c), ht.dead, hcurrent, ht.self hparent,
    fun y hy => ht.others hy⟩

/-- What `free()` does with a state that has no children. -/
structure Freed (w w' : Forest C) (s : ℕ) : Prop where
  linked : Linked w'
  current : w'.current = w.current.erase s
  next : w'.next = w.next
  dead : ¬ Live w'.heap s
  others : ∀ y ≠ s, w'.heap y = { w.heap y with fChildren := (w.heap y).fChildren.erase s }

theorem clear_leaf (h : Linked w) (hleaf : (w.heap s).fChildren = []) :
    ∃ u, w.clear s = some u ∧ u.current = w.current ∧ u.next = w.next ∧
      u.freeStates = w.freeStates ∧ u.heap s = cleared (w.heap s) ∧
      ∀ y ≠ s, u.heap y = { w.heap y with fChildren := (w.heap y).fChildren.erase s } := by
  have hnone : ∀ y, (w.heap s).fParent ≠ some y → (w.heap y).fChildren.erase s =
      (w.heap y).fChildren := fun y hy =>
    List.erase_of_not_mem (fun hmem => hy ((h.links s y).mpr hmem))
  unfold clear
  rw [if_neg (not_not.mpr hleaf)]
  cases hparent : (w.heap s).fParent with
  | none =>
    refine ⟨_, rfl, rfl, rfl, rfl, modify_heap_self _, fun y hy => ?_⟩
    rw [modify_heap_of_ne _ hy, hnone y (by rw [hparent]; simp)]
  | some p =>
    have hmem := (h.links s p).mp hparent
    have hps : p ≠ s := by
      rintro rfl
      rw [hleaf] at hmem
      cases hmem
    simp only [if_pos hmem]
    refine ⟨_, rfl, rfl, rfl, rfl, ?_, fun y hy => ?_⟩
    · rw [modify_heap_self, modify_heap_of_ne _ hps.symm]
    · rw [modify_heap_of_ne _ hy]
      by_cases hyp : y = p
      · subst hyp
        rw [modify_heap_self]
      · rw [modify_heap_of_ne _ hyp, hnone y]
        rw [hparent]
        exact fun heq => hyp (Option.some.inj heq).symm

theorem freed (h : Linked w) (hlive : Live w.heap s) (hleaf : (w.heap s).fChildren = []) :
    ∃ w', w.free s = some w' ∧ Freed w w' s := by
  obtain ⟨u, hclear, hcurrent, hnext, hfree, hself, hothers⟩ := clear_leaf h hleaf
  have hlast : (w.heap s).fChildren.getLast? = none := by rw [hleaf]; rfl
  refine ⟨{ u with current := u.current.erase s, freeStates := u.freeStates ++ [s] }, ?_, ?_⟩
  · rw [free, freeFrom, hlast]
    simp only [hclear, Option.map_some]
  have hsdead : ¬ (u.heap s).fChoices ≠ none := by rw [hself]; exact not_not.mpr rfl
  have hparents : ∀ y, (w.heap y).fParent ≠ some s := fun y hy => by
    have hmem := (h.links y s).mp hy
    rw [hleaf] at hmem
    cases hmem
  refine ⟨⟨fun a b => ?_, fun b => ?_, fun a ha => ?_, fun a ha => ?_, fun a ha => ?_, ?_⟩,
    by rw [hcurrent], hnext, hsdead, hothers⟩
  · change (u.heap a).fParent = some b ↔ a ∈ (u.heap b).fChildren
    by_cases hb : b = s
    · subst hb
      have hempty : (u.heap b).fChildren = [] := by rw [hself]; exact hleaf
      rw [hempty]
      refine ⟨fun hp => ?_, fun hmem => absurd hmem List.not_mem_nil⟩
      by_cases ha : a = b
      · subst ha
        rw [hself] at hp
        cases hp
      · rw [hothers a ha] at hp
        exact absurd hp (hparents a)
    · rw [hothers b hb]
      by_cases ha : a = s
      · subst ha
        rw [hself]
        exact ⟨fun hp => (by cases hp), fun hmem => absurd hmem (h.nodup b).not_mem_erase⟩
      · rw [hothers a ha]
        exact (h.links a b).trans (List.mem_erase_of_ne ha).symm
  · change (u.heap b).fChildren.Nodup
    by_cases hb : b = s
    · rw [hb, hself]
      exact h.nodup s
    · rw [hothers b hb]
      exact (h.nodup b).erase s
  · change (u.heap a).fParent = none ∧ (u.heap a).fChildren = []
    change ¬ (u.heap a).fChoices ≠ none at ha
    by_cases has : a = s
    · rw [has, hself]
      exact ⟨rfl, hleaf⟩
    · rw [hothers a has] at ha ⊢
      obtain ⟨hparent, hchildren⟩ := h.dead a ha
      exact ⟨hparent, by rw [hchildren]; rfl⟩
  · change (u.heap a).fChoices ≠ none at ha
    change a < u.next
    have has : a ≠ s := by
      rintro rfl
      exact hsdead ha
    rw [hothers a has] at ha
    rw [hnext]
    exact h.made a ha
  · change a < u.next ∧ ¬ (u.heap a).fChoices ≠ none
    rw [hnext]
    rcases List.mem_append.mp ha with hmem | hmem
    · rw [hfree] at hmem
      have has : a ≠ s := by
        rintro rfl
        exact (h.freed a hmem).2 hlive
      rw [hothers a has]
      exact h.freed a hmem
    · rw [List.mem_singleton.mp hmem]
      exact ⟨h.made s hlive, hsdead⟩
  · change (u.freeStates ++ [s]).Nodup
    rw [hfree]
    refine List.Nodup.append h.freedOnce (by simp) ?_
    intro a ha ha'
    rw [List.mem_singleton.mp ha'] at ha
    exact (h.freed s ha).2 hlive

end Operations

section Stacks

variable (G : Grammar C) (start : C)

/-- The stack of a state in memory. Its parent waits for its choices. -/
inductive Stands (heap : ℕ → ParserState C) : ℕ → Stack C → Prop
  | root {s : ℕ} : (heap s).data = { fChoices := some .root } → Stands heap s (.root start)
  | accept {s : ℕ} {t : Tree C} :
      (heap s).data = { fChoices := some .root, fPosition := 1, fNode := some [t] } →
      Stands heap s (.accept t)
  | frame {s p i k : ℕ} {c : C} {r : Rule C} {todo : List (Item C)}
      {tokens : Option (List (Tree C))} {node : List (Tree C)} {parent : Stack C} :
      (heap s).data =
        { fParent := some p, fChoices := some (.own c), fRule := i, fPosition := k,
          fNode := tokens } →
      (G.rules c)[i]? = some r → r.items.drop k = todo → todo ≠ [] → tokens.getD [] = node →
      parent.expected = some (.choices c) → Stands heap p parent →
      Stands heap s (.frame ⟨c, i, todo, node⟩ parent)

/-- A state without children, as the current ones are. -/
def Tip (heap : ℕ → ParserState C) (s : ℕ) (state : Stack C) : Prop :=
  (heap s).fChildren = [] ∧ Stands G start heap s state

/-- A state and its parents. -/
def Above (heap : ℕ → ParserState C) : ℕ → ℕ → Prop :=
  Relation.ReflTransGen fun a b => (heap a).fParent = some b

variable {G start} {heap heap' : ℕ → ParserState C} {w : Forest C} {state state' : Stack C}
  {s x y q : ℕ}

theorem Stands.live (h : Stands G start heap s state) : Live heap s := by
  unfold Live
  cases h with
  | root hdata | accept hdata | frame hdata => simp [(ParserState.fields hdata).2.1]

theorem Stands.parent_of_frame {top : Frame C} (h : Stands G start heap s (.frame top state)) :
    ∃ p, (heap s).fParent = some p ∧ Stands G start heap p state := by
  cases h with
  | @frame s p i k c r todo tokens node parent hdata hrule htodo hne hnode hexpected hparent =>
    exact ⟨p, congrArg ParserState.fParent hdata, hparent⟩

/-- The memory away from a state and its parents does not matter. -/
theorem Stands.congr (h : Stands G start heap s state)
    (hsame : ∀ x, Above heap s x → (heap' x).data = (heap x).data) :
    Stands G start heap' s state := by
  induction h with
  | root hdata => exact Stands.root ((hsame _ Relation.ReflTransGen.refl).trans hdata)
  | accept hdata => exact Stands.accept ((hsame _ Relation.ReflTransGen.refl).trans hdata)
  | frame hdata hrule htodo hne hnode hexpected _ ih =>
    refine Stands.frame ((hsame _ Relation.ReflTransGen.refl).trans hdata) hrule htodo hne hnode
      hexpected (ih fun x hx => hsame x (Relation.ReflTransGen.head ?_ hx))
    exact congrArg ParserState.fParent hdata

theorem Stands.above (h : Stands G start heap s state) (hx : Above heap s x) :
    ∃ state', Stands G start heap x state' ∧ state'.depth ≤ state.depth := by
  induction hx with
  | refl => exact ⟨state, h, le_rfl⟩
  | tail _ hparent ih =>
    obtain ⟨state', h', hle⟩ := ih
    cases h' with
    | root hdata | accept hdata => cases hparent.symm.trans (ParserState.fields hdata).1
    | @frame _ p i k c r todo tokens node parent hdata _ _ _ _ _ hstands =>
      obtain rfl : _ = p := Option.some.inj (hparent.symm.trans (ParserState.fields hdata).1)
      exact ⟨parent, hstands, (Nat.le_succ _).trans hle⟩

theorem Stands.depth_eq (h : Stands G start heap s state) (h' : Stands G start heap s state') :
    state.depth = state'.depth := by
  induction h generalizing state' with
  | root hdata | accept hdata =>
    cases h' with
    | root => rfl
    | accept => rfl
    | frame hdata' => cases (congrArg ParserState.fParent (hdata.symm.trans hdata'))
  | frame hdata _ _ _ _ _ _ ih =>
    cases h' with
    | root hdata' | accept hdata' => cases (congrArg ParserState.fParent (hdata.symm.trans hdata'))
    | frame hdata' _ _ _ _ _ hparent' =>
      obtain rfl := Option.some.inj (congrArg ParserState.fParent (hdata.symm.trans hdata'))
      exact congrArg (· + 1) (ih hparent')

/-- No state is its own parent, however far up. -/
theorem Stands.not_above {p : ℕ} {top : Frame C} (h : Stands G start heap s (.frame top state))
    (hparent : (heap s).fParent = some p) : ¬ Above heap p s := by
  intro habove
  obtain ⟨p', hp', hstands⟩ := h.parent_of_frame
  obtain rfl := Option.some.inj (hparent.symm.trans hp')
  obtain ⟨state', h', hle⟩ := hstands.above habove
  have hdepth : state'.depth = state.depth + 1 := h'.depth_eq h
  omega

/-- Where `q` has no child but `s`, and `s` has none, nothing else is below them. -/
theorem Linked.not_above (h : Linked w) (honly : ∀ z ∈ (w.heap q).fChildren, z = s)
    (hleaf : (w.heap s).fChildren = []) (hq : y ≠ q) (hs : y ≠ s) : ¬ Above w.heap y q := by
  have hnone : ¬ Above w.heap y s := by
    intro habove
    rcases Relation.ReflTransGen.cases_tail habove with rfl | ⟨z, -, hz⟩
    · exact hs rfl
    · have hmem := (h.links z s).mp hz
      rw [hleaf] at hmem
      cases hmem
  intro habove
  rcases Relation.ReflTransGen.cases_tail habove with rfl | ⟨z, hyz, hz⟩
  · exact hq rfl
  · exact hnone (honly z ((h.links z q).mp hz) ▸ hyz)

theorem Linked.not_above_leaf (h : Linked w) (hleaf : (w.heap s).fChildren = []) (hy : y ≠ s) :
    ¬ Above w.heap y s :=
  h.not_above (fun _ hz => absurd (hleaf ▸ hz) List.not_mem_nil) hleaf hy hy

theorem Linked.parent_ne {p : ℕ} (h : Linked w) (hleaf : (w.heap s).fChildren = [])
    (hparent : (w.heap s).fParent = some p) : p ≠ s := by
  rintro rfl
  have hmem := (h.links p p).mp hparent
  rw [hleaf] at hmem
  cases hmem

/-- A chain of parents has no state twice. -/
theorem Stands.depth_lt (h : Stands G start w.heap s state) (hlinked : Linked w) :
    state.depth < w.next := by
  have hchain : ∃ l : List ℕ, l.Nodup ∧ l.length = state.depth + 1 ∧
      ∀ x ∈ l, Above w.heap s x := by
    induction h with
    | root | accept => exact ⟨[_], by simp, rfl, fun x hx => List.mem_singleton.mp hx ▸ .refl⟩
    | @frame s p i k c r todo tokens node parent hdata hrule htodo hne hnode hexpected hstands ih =>
      obtain ⟨l, hnodup, hlength, hall⟩ := ih
      have hparent : (w.heap s).fParent = some p := congrArg ParserState.fParent hdata
      have hframe := Stands.frame hdata hrule htodo hne hnode hexpected hstands
      refine ⟨s :: l,
        List.nodup_cons.mpr ⟨fun hmem => hframe.not_above hparent (hall s hmem), hnodup⟩,
        by simp [hlength, Stack.depth], fun x hx => ?_⟩
      rcases List.mem_cons.mp hx with rfl | hx
      · exact .refl
      · exact .head hparent (hall x hx)
  obtain ⟨l, hnodup, hlength, hall⟩ := hchain
  have hsubset : l ⊆ List.range w.next := fun x hx => by
    obtain ⟨_, hx', -⟩ := h.above (hall x hx)
    exact List.mem_range.mpr (hlinked.made x hx'.live)
  have hle := (hnodup.subperm hsubset).length_le
  rw [List.length_range] at hle
  omega

/-- The item that a state waits for. -/
theorem Stands.expected [DecidableEq C] (h : Stands G start w.heap s state) :
    w.expected G start s = some state.expected := by
  unfold Forest.expected
  cases h with
  | root hdata | accept hdata =>
    obtain ⟨-, hchoices, hrule, hposition, -⟩ := ParserState.fields hdata
    simp only [hchoices, hrule, hposition]
    rfl
  | @frame s p i k c r todo tokens node parent hdata hr htodo hne =>
    obtain ⟨-, hchoices, hrule, hposition, -⟩ := ParserState.fields hdata
    obtain ⟨item, items, rfl⟩ := List.exists_cons_of_ne_nil hne
    have hitem : r.items[k]? = some item := by
      rw [← List.head?_drop, htodo]
      rfl
    simp only [hchoices, hrule, hposition, Choices.rules, List.getElem?_map, hr, Option.map_some,
      Option.bind_some, hitem]
    rfl

end Stacks

end Forest

end SnapCpp.Parser

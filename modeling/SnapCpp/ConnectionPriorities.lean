import SnapCpp.Runs

/-!
The connections of a `snap_communicator` and the order of their callbacks. Each pass of
`run()` goes over a copy of `f_connections`, which it sorts first if `f_force_sort` says
so. The callbacks of a pass may add and remove connections and change priorities; a new
priority makes the next pass sort, but a new connection is only put behind the others.
-/
namespace SnapCpp.ConnectionPriorities

variable {α : Type} [DecidableEq α]

/-- The members of `snap_communicator`, and `f_priority` of all connections. -/
structure Communicator (α : Type) where
  fConnections : List α := []
  fForceSort : Bool := true
  fPriority : α → ℤ := fun _ => 100

inductive Error
  | withoutSocket
  | priorityOutOfRange
  deriving DecidableEq

def eventMaxPriority : ℤ := 255

namespace Communicator

def addConnection (validSocket : Bool) (connection : α) (s : Communicator α) :
    Except Error (Bool × Communicator α) :=
  if validSocket = false then .error .withoutSocket
  else if connection ∈ s.fConnections then .ok (false, s)
  else .ok (true, { s with fConnections := s.fConnections ++ [connection] })

def removeConnection (connection : α) (s : Communicator α) : Bool × Communicator α :=
  if connection ∈ s.fConnections then
    (true, { s with fConnections := s.fConnections.erase connection })
  else (false, s)

/-- `set_priority()` of a connection. -/
def setPriority (connection : α) (priority : ℤ) (s : Communicator α) :
    Except Error (Communicator α) :=
  if priority < 0 ∨ eventMaxPriority < priority then .error .priorityOutOfRange
  else .ok { s with
    fPriority := Function.update s.fPriority connection priority
    fForceSort := true }

def compare (s : Communicator α) (lhs rhs : α) : Bool := s.fPriority lhs < s.fPriority rhs

def sort (s : Communicator α) : Communicator α :=
  if s.fForceSort then
    { s with
      fConnections := s.fConnections.mergeSort fun a b => !s.compare b a
      fForceSort := false }
  else s

end Communicator

/-- The calls that a program makes before `run()` and from its callbacks. -/
inductive Call (α : Type)
  | add (validSocket : Bool) (connection : α)
  | remove (connection : α)
  | setPriority (connection : α) (priority : ℤ)

def Communicator.call (s : Communicator α) : Call α → Communicator α
  | .add validSocket connection =>
      match s.addConnection validSocket connection with
      | .error _ => s
      | .ok (_, s) => s
  | .remove connection => (s.removeConnection connection).2
  | .setPriority connection priority =>
      match s.setPriority connection priority with
      | .error _ => s
      | .ok s => s

/-- A pass over a copy of the connections: those it has looked at and the others. The
list before the sort, the communicator behind it and the callbacks are recorded. -/
structure Pass (α : Type) where
  enabled : α → Bool
  looked : List α := []
  pending : List α
  before : List α
  start : Communicator α
  called : List α := []

/-- Where a program is. -/
inductive Phase (α : Type)
  | outside
  | top
  | inPass (p : Pass α)

structure World (α : Type) where
  communicator : Communicator α := {}
  phase : Phase α := .outside

inductive Event (α : Type)
  | call (c : Call α)
  | enter
  /-- The loop that asks every connection whether it is enabled. -/
  | start (enabled : α → Bool)
  /-- The second loop comes to the next connection. -/
  | next
  /-- A callback of the connection the loop is at. -/
  | callback
  | finish
  /-- `run()` returns or an exception leaves it. -/
  | leave

def Pass.current (p : Pass α) : Option α := p.looked.getLast?.filter p.enabled

def step (w : World α) : Event α → Option (World α)
  | .call c =>
      match w.phase with
      | .top => none
      | _ => some { w with communicator := w.communicator.call c }
  | .enter =>
      match w.phase with
      | .outside => some ⟨{ w.communicator with fForceSort := true }, .top⟩
      | _ => none
  | .start enabled =>
      match w.phase with
      | .top =>
          if w.communicator.fConnections = [] then none
          else
            let s := w.communicator.sort
            some ⟨s, .inPass {
              enabled
              pending := s.fConnections
              before := w.communicator.fConnections
              start := s }⟩
      | _ => none
  | .next =>
      match w.phase with
      | .inPass p =>
          match p.pending with
          | [] => none
          | c :: pending => some { w with
              phase := .inPass { p with looked := p.looked ++ [c], pending } }
      | _ => none
  | .callback =>
      match w.phase with
      | .inPass p =>
          match p.current with
          | none => none
          | some c => some { w with phase := .inPass { p with called := p.called ++ [c] } }
      | _ => none
  | .finish =>
      match w.phase with
      | .inPass p => if p.pending = [] then some { w with phase := .top } else none
      | _ => none
  | .leave =>
      match w.phase with
      | .outside => none
      | _ => some { w with phase := .outside }

def Pass.Before (p : Pass α) (a b : α) : Prop :=
  p.start.fPriority a < p.start.fPriority b ∨
    p.start.fPriority a = p.start.fPriority b ∧ p.before.idxOf a < p.before.idxOf b

structure InOrder (p : Pass α) : Prop where
  nodup : p.start.fConnections.Nodup
  sorted : p.start.fConnections.Pairwise p.Before
  enabled : ∀ c ∈ p.called, c ∈ p.start.fConnections ∧ p.enabled c = true
  called : p.called.Pairwise fun a b => a = b ∨ p.Before a b

def AddsBehind (w : World α) : Event α → Prop
  | .call (.add true connection) =>
      (∃ p, w.phase = .inPass p) → connection ∉ w.communicator.fConnections →
        w.communicator.fForceSort = true ∨ ∀ c ∈ w.communicator.fConnections,
          w.communicator.fPriority c ≤ w.communicator.fPriority connection
  | _ => True

def Step (w : World α) (e : Event α) (w' : World α) : Prop := step w e = some w'

def BehindStep (w : World α) (e : Event α) (w' : World α) : Prop := Step w e w' ∧ AddsBehind w e

section Sorting

variable {f : α → ℤ} {l : List α}

def atMost (f : α → ℤ) (a b : α) : Bool := !decide (f b < f a)

omit [DecidableEq α] in
theorem atMost_iff {a b : α} : atMost f a b = true ↔ f a ≤ f b := by
  rw [atMost, Bool.not_eq_true', decide_eq_false_iff_not, not_lt]

omit [DecidableEq α] in
theorem atMost_trans (a b c : α) (hab : atMost f a b = true) (hbc : atMost f b c = true) :
    atMost f a c = true :=
  atMost_iff.mpr ((atMost_iff.mp hab).trans (atMost_iff.mp hbc))

omit [DecidableEq α] in
theorem atMost_total (a b : α) : (atMost f a b || atMost f b a) = true := by
  rw [Bool.or_eq_true, atMost_iff, atMost_iff]
  exact le_total _ _

omit [DecidableEq α] in
theorem filter_mergeSort (f : α → ℤ) (l : List α) (n : ℤ) :
    (l.mergeSort (atMost f)).filter (fun a => f a = n) = l.filter fun a => f a = n := by
  have hsame : (l.filter fun a => f a = n).Pairwise fun a b => atMost f a b = true := by
    rw [List.pairwise_filter]
    refine List.pairwise_of_forall fun a b ha hb => atMost_iff.mpr ?_
    rw [of_decide_eq_true ha, of_decide_eq_true hb]
  have hsub := List.sublist_mergeSort atMost_trans atMost_total hsame List.filter_sublist
  have hfilter := hsub.filter fun a => decide (f a = n)
  rw [List.filter_filter] at hfilter
  simp only [Bool.and_self] at hfilter
  refine (hfilter.eq_of_length ?_).symm
  exact ((List.mergeSort_perm l _).filter _).length_eq.symm

theorem pairwise_idxOf (h : l.Nodup) : l.Pairwise fun a b => l.idxOf a < l.idxOf b := by
  rw [List.pairwise_iff_getElem]
  intro i j hi hj hij
  rwa [h.idxOf_getElem, h.idxOf_getElem]

theorem pairwise_mergeSort (h : l.Nodup) : (l.mergeSort (atMost f)).Pairwise fun a b =>
    f a < f b ∨ f a = f b ∧ l.idxOf a < l.idxOf b := by
  rw [List.pairwise_iff_forall_sublist]
  intro a b hsub
  have hle := atMost_iff.mp (List.pairwise_iff_forall_sublist.mp
    (List.pairwise_mergeSort atMost_trans atMost_total l) hsub)
  rcases hle.lt_or_eq with hlt | heq
  · exact .inl hlt
  · have hfilter := hsub.filter fun x => decide (f x = f a)
    rw [filter_mergeSort] at hfilter
    simp only [List.filter_cons, heq, decide_true, if_true, List.filter_nil] at hfilter
    have hl := hfilter.trans List.filter_sublist
    exact .inr ⟨heq, List.pairwise_iff_forall_sublist.mp (pairwise_idxOf h) hl⟩

end Sorting

section Calls

variable {s : Communicator α}

def Communicator.Ready (s : Communicator α) : Prop :=
  s.fForceSort = true ∨ s.fConnections.Pairwise fun a b => s.fPriority a ≤ s.fPriority b

omit [DecidableEq α] in
theorem sort_perm (s : Communicator α) : s.sort.fConnections.Perm s.fConnections := by
  rw [Communicator.sort]
  split_ifs
  · exact List.mergeSort_perm _ _
  · exact List.Perm.refl _

omit [DecidableEq α] in
theorem sort_fPriority (s : Communicator α) : s.sort.fPriority = s.fPriority := by
  rw [Communicator.sort]
  split_ifs <;> rfl

theorem sort_ordered (hnodup : s.fConnections.Nodup) (hready : s.Ready) :
    s.sort.fConnections.Pairwise fun a b => s.fPriority a < s.fPriority b ∨
      s.fPriority a = s.fPriority b ∧ s.fConnections.idxOf a < s.fConnections.idxOf b := by
  rw [Communicator.sort]
  by_cases hforce : s.fForceSort = true
  · rw [if_pos hforce]
    exact pairwise_mergeSort hnodup
  · rw [if_neg hforce]
    have hsorted := hready.resolve_left hforce
    refine hsorted.imp₂ (fun a b hle hlt => ?_) (pairwise_idxOf hnodup)
    rcases hle.lt_or_eq with hless | heq
    · exact .inl hless
    · exact .inr ⟨heq, hlt⟩

theorem sort_ready (hnodup : s.fConnections.Nodup) (hready : s.Ready) : s.sort.Ready := by
  refine .inr ?_
  rw [sort_fPriority]
  refine (sort_ordered hnodup hready).imp fun h => ?_
  rcases h with hlt | ⟨heq, -⟩
  · exact hlt.le
  · exact heq.le

theorem call_cases (s : Communicator α) (c : Call α) : s.call c = s ∨
    (∃ connection, c = .add true connection ∧ connection ∉ s.fConnections ∧
      s.call c = { s with fConnections := s.fConnections ++ [connection] }) ∨
    (∃ connection, s.call c = { s with fConnections := s.fConnections.erase connection }) ∨
    ∃ fPriority, s.call c = { s with fPriority, fForceSort := true } := by
  cases c with
  | add validSocket connection =>
    simp only [Communicator.call, Communicator.addConnection]
    cases validSocket with
    | false => exact .inl rfl
    | true =>
      by_cases hmem : connection ∈ s.fConnections
      · exact .inl (by simp only [hmem, if_true]; rfl)
      · exact .inr (.inl ⟨connection, rfl, hmem, by simp only [hmem, if_false]; rfl⟩)
  | remove connection =>
    simp only [Communicator.call, Communicator.removeConnection]
    by_cases hmem : connection ∈ s.fConnections
    · exact .inr (.inr (.inl ⟨connection, by rw [if_pos hmem]⟩))
    · exact .inl (by rw [if_neg hmem])
  | setPriority connection priority =>
    simp only [Communicator.call, Communicator.setPriority]
    by_cases hrange : priority < 0 ∨ eventMaxPriority < priority
    · exact .inl (by rw [if_pos hrange])
    · exact .inr (.inr (.inr ⟨_, by rw [if_neg hrange]⟩))

theorem call_nodup (h : s.fConnections.Nodup) (c : Call α) : (s.call c).fConnections.Nodup := by
  rcases call_cases s c with hc | ⟨connection, -, hmem, hc⟩ | ⟨connection, hc⟩ | ⟨fPriority, hc⟩
  · rwa [hc]
  · rw [hc]
    exact h.append (List.nodup_singleton _) (List.disjoint_singleton.mpr hmem)
  · rw [hc]
    exact h.erase _
  · rwa [hc]

omit [DecidableEq α] in
/-- With a new connection the next pass is still in order exactly if a sort is due or
the connection belongs behind all the others. -/
theorem ready_append_iff {connection : α} (hready : s.Ready) :
    Communicator.Ready { s with fConnections := s.fConnections ++ [connection] } ↔
      s.fForceSort = true ∨ ∀ c ∈ s.fConnections, s.fPriority c ≤ s.fPriority connection := by
  constructor
  · rintro (hforce | hsorted)
    · exact .inl hforce
    · exact .inr fun c hc => (List.pairwise_append.mp hsorted).2.2 c hc connection
        (List.mem_singleton_self _)
  · rintro (hforce | hbehind)
    · exact .inl hforce
    · rcases hready with hforce | hsorted
      · exact .inl hforce
      · refine .inr (List.pairwise_append.mpr ⟨hsorted, List.pairwise_singleton _ _, ?_⟩)
        intro c hc d hd
        rw [List.mem_singleton.mp hd]
        exact hbehind c hc

theorem call_ready (h : s.Ready) (c : Call α)
    (hadd : ∀ connection, c = .add true connection → connection ∉ s.fConnections →
      s.fForceSort = true ∨ ∀ d ∈ s.fConnections, s.fPriority d ≤ s.fPriority connection) :
    (s.call c).Ready := by
  rcases call_cases s c with hc | ⟨connection, heq, hmem, hc⟩ | ⟨connection, hc⟩ | ⟨fPriority, hc⟩
  · rwa [hc]
  · rw [hc]
    exact (ready_append_iff h).mpr (hadd connection heq hmem)
  · rw [hc]
    exact h.imp id fun hsorted => hsorted.sublist List.erase_sublist
  · rw [hc]
    exact .inl rfl

end Calls

/-- What holds whenever no step added a connection in front of where it belongs. -/
structure Inv (w : World α) : Prop where
  nodup : w.communicator.fConnections.Nodup
  ready : w.phase ≠ .outside → w.communicator.Ready
  pass : ∀ p, w.phase = .inPass p → InOrder p ∧ p.looked ++ p.pending = p.start.fConnections ∧
    ∀ c ∈ p.called, c ∈ p.looked

section Steps

variable {w w' : World α}

theorem Inv.call (h : Inv w) (c : Call α) (htop : w.phase ≠ .top)
    (hbehind : AddsBehind w (.call c)) :
    Inv { w with communicator := w.communicator.call c } := by
  refine ⟨call_nodup h.nodup c, fun hphase => ?_, h.pass⟩
  refine call_ready (h.ready hphase) c ?_
  rintro connection rfl hmem
  refine hbehind ?_ hmem
  cases hw : w.phase with
  | outside => exact absurd hw hphase
  | top => exact absurd hw htop
  | inPass p => exact ⟨p, rfl⟩

theorem Inv.start (h : Inv w) (htop : w.phase = .top) (enabled : α → Bool) :
    Inv ⟨w.communicator.sort, .inPass {
      enabled
      pending := w.communicator.sort.fConnections
      before := w.communicator.fConnections
      start := w.communicator.sort }⟩ := by
  have hready := h.ready (by simp [htop])
  have hnodup := (sort_perm w.communicator).nodup_iff.mpr h.nodup
  refine ⟨hnodup, fun _ => sort_ready h.nodup hready, ?_⟩
  rintro p ⟨rfl⟩
  refine ⟨⟨hnodup, ?_, ?_, List.Pairwise.nil⟩, rfl, ?_⟩
  · refine (sort_ordered h.nodup hready).imp fun hab => ?_
    rw [Pass.Before, sort_fPriority]
    exact hab
  · intro c hc
    cases hc
  · intro c hc
    cases hc

theorem Inv.next {p : Pass α} (h : Inv w) (hphase : w.phase = .inPass p) {c : α} {pending : List α}
    (hpending : p.pending = c :: pending) :
    Inv { w with phase := .inPass { p with looked := p.looked ++ [c], pending } } := by
  obtain ⟨horder, hsplit, hlooked⟩ := h.pass p hphase
  refine ⟨h.nodup, fun _ => h.ready (by simp [hphase]), ?_⟩
  rintro q ⟨rfl⟩
  refine ⟨⟨horder.nodup, horder.sorted, horder.enabled, horder.called⟩, ?_, ?_⟩
  · rw [← hsplit, hpending, List.append_assoc]
    rfl
  · exact fun d hd => List.mem_append_left _ (hlooked d hd)

theorem Inv.callback {p : Pass α} (h : Inv w) (hphase : w.phase = .inPass p) {c : α}
    (hcurrent : p.current = some c) :
    Inv { w with phase := .inPass { p with called := p.called ++ [c] } } := by
  obtain ⟨horder, hsplit, hlooked⟩ := h.pass p hphase
  rw [Pass.current, Option.filter_eq_some_iff] at hcurrent
  obtain ⟨hlast, henabled⟩ := hcurrent
  obtain ⟨front, hfront⟩ := List.getLast?_eq_some_iff.mp hlast
  have hmem : c ∈ p.looked := by
    rw [hfront]
    exact List.mem_append_right _ (List.mem_singleton_self c)
  refine ⟨h.nodup, fun _ => h.ready (by simp [hphase]), ?_⟩
  rintro q ⟨rfl⟩
  refine ⟨⟨horder.nodup, horder.sorted, ?_, ?_⟩, hsplit, ?_⟩
  · intro d hd
    rcases List.mem_append.mp hd with hd | hd
    · exact horder.enabled d hd
    · rw [List.mem_singleton.mp hd]
      refine ⟨?_, henabled⟩
      rw [← hsplit]
      exact List.mem_append_left _ hmem
  · refine List.pairwise_append.mpr ⟨horder.called, List.pairwise_singleton _ _, ?_⟩
    intro a ha b hb
    rw [List.mem_singleton.mp hb]
    have hmema := hlooked a ha
    rw [hfront, List.mem_append, List.mem_singleton] at hmema
    rcases hmema with hmema | heq
    · have hsorted := horder.sorted
      rw [← hsplit, hfront] at hsorted
      have hlooked := (List.pairwise_append.mp hsorted).1
      exact .inr ((List.pairwise_append.mp hlooked).2.2 a hmema c (List.mem_singleton_self c))
    · exact .inl heq
  · intro d hd
    rcases List.mem_append.mp hd with hd | hd
    · exact hlooked d hd
    · rw [List.mem_singleton.mp hd]
      exact hmem

theorem Inv.step {e : Event α} (h : Inv w) (hstep : BehindStep w e w') : Inv w' := by
  obtain ⟨hstep, hbehind⟩ := hstep
  rw [Step, step.eq_def] at hstep
  cases e with
  | call c =>
    have htop : w.phase ≠ .top := fun htop => by simp [htop] at hstep
    have hcall := h.call c htop hbehind
    dsimp only at hstep
    split at hstep
    · cases hstep
    · rwa [← Option.some.inj hstep]
  | enter =>
    dsimp only at hstep
    split at hstep
    · rw [← Option.some.inj hstep]
      exact ⟨h.nodup, fun _ => .inl rfl, fun p hp => by cases hp⟩
    · cases hstep
  | start enabled =>
    dsimp only at hstep
    split at hstep
    next htop =>
      split_ifs at hstep
      rw [← Option.some.inj hstep]
      exact h.start htop enabled
    next => cases hstep
  | next =>
    dsimp only at hstep
    split at hstep
    next p hphase =>
      split at hstep
      next => cases hstep
      next c pending hpending =>
        rw [← Option.some.inj hstep]
        exact h.next hphase hpending
    next => cases hstep
  | callback =>
    dsimp only at hstep
    split at hstep
    next p hphase =>
      split at hstep
      next => cases hstep
      next c hcurrent =>
        rw [← Option.some.inj hstep]
        exact h.callback hphase hcurrent
    next => cases hstep
  | finish =>
    dsimp only at hstep
    split at hstep
    next p hphase =>
      split_ifs at hstep
      rw [← Option.some.inj hstep]
      exact ⟨h.nodup, fun _ => h.ready (by simp [hphase]), fun q hq => by cases hq⟩
    next => cases hstep
  | leave =>
    dsimp only at hstep
    split at hstep
    next => cases hstep
    next =>
      rw [← Option.some.inj hstep]
      exact ⟨h.nodup, fun hne => absurd rfl hne, fun q hq => by cases hq⟩

theorem inv_init : Inv ({} : World α) :=
  ⟨List.nodup_nil, fun h => absurd rfl h, fun p hp => by cases hp⟩

/-- In every run in which callbacks add connections only where they belong, every pass
starts with the connections once each and in the order of their priorities, and calls
the callbacks of those that are enabled in this order. -/
theorem callbacks_follow_priorities {events : List (Event α)} {p : Pass α}
    (hrun : Runs BehindStep {} events w) (hphase : w.phase = .inPass p) : InOrder p :=
  ((hrun.invariant Inv inv_init fun _ _ _ ha hab => ha.step hab).pass p hphase).1

end Steps

def addition (priority : ℤ) : List (Event ℕ) :=
  [.call (.setPriority 0 priority), .call (.add true 0), .enter, .start fun _ => true, .next,
    .callback, .call (.add true 1), .finish, .start fun _ => true]

def alone (priority : ℤ) (fForceSort : Bool) : Communicator ℕ :=
  ⟨[0], fForceSort, Function.update (fun _ => 100) 0 priority⟩

theorem sort_alone (priority : ℤ) : (alone priority true).sort = alone priority false := by
  simp [Communicator.sort, alone]

theorem runs_addition (priority : ℤ) (hrange : 0 ≤ priority ∧ priority ≤ eventMaxPriority) :
    ∃ w p, Runs (fun a e b => Step a e b ∧ (priority ≤ 100 → AddsBehind a e)) {}
      (addition priority) w ∧ w.phase = .inPass p ∧ p.start.fConnections = [0, 1] ∧
      p.start.fPriority 0 = priority ∧ p.start.fPriority 1 = 100 := by
  have hset : step {} (.call (.setPriority 0 priority)) =
      some ⟨⟨[], true, Function.update (fun _ => 100) 0 priority⟩, .outside⟩ := by
    have hno : ¬(priority < 0 ∨ eventMaxPriority < priority) := by omega
    simp only [step, Communicator.call, Communicator.setPriority, if_neg hno]
  have hstart : step ⟨alone priority true, .top⟩ (.start fun _ => true) =
      some ⟨alone priority false, .inPass {
        enabled := fun _ => true
        pending := [0]
        before := [0]
        start := alone priority false }⟩ := by
    simp only [step, sort_alone]
    rfl
  refine ⟨_, _, Runs.cons ⟨hset, fun _ => trivial⟩ <| Runs.cons ⟨rfl, ?_⟩ <|
    Runs.cons ⟨rfl, fun _ => trivial⟩ <| Runs.cons ⟨hstart, fun _ => trivial⟩ <|
    Runs.cons ⟨rfl, fun _ => trivial⟩ <| Runs.cons ⟨rfl, fun _ => trivial⟩ <|
    Runs.cons ⟨rfl, fun hle _ _ => .inr ?_⟩ <| Runs.cons ⟨rfl, fun _ => trivial⟩ <|
    Runs.cons ⟨rfl, fun _ => trivial⟩ <| Runs.nil _, rfl, rfl, rfl, rfl⟩
  · rintro - ⟨p, hp⟩
    cases hp
  · intro c hc
    rw [List.mem_singleton.mp hc]
    exact hle

/-- A connection with the same priority as the one that was there. -/
theorem callbacks_follow_priorities_two : ∃ p : Pass ℕ,
    p.start.fConnections = [0, 1] ∧ InOrder p := by
  obtain ⟨w, p, hrun, hphase, hconnections, -, -⟩ := runs_addition 100 (by decide)
  refine ⟨p, hconnections, callbacks_follow_priorities (hrun.mono fun a e b h => ?_) hphase⟩
  exact ⟨h.1, h.2 le_rfl⟩

/-- A connection with the priority of a new one, added by a callback of one with priority
150: the next pass starts with them in the wrong order. -/
theorem added_out_of_order : ∃ (events : List (Event ℕ)) (w : World ℕ) (p : Pass ℕ),
    Runs Step {} events w ∧ w.phase = .inPass p ∧
      ¬ p.start.fConnections.Pairwise fun a b => p.start.fPriority a ≤ p.start.fPriority b := by
  obtain ⟨w, p, hrun, hphase, hconnections, hfirst, hsecond⟩ := runs_addition 150 (by decide)
  refine ⟨_, w, p, hrun.mono fun a e b h => h.1, hphase, fun hsorted => ?_⟩
  rw [hconnections, List.pairwise_pair, hfirst, hsecond] at hsorted
  omega

end SnapCpp.ConnectionPriorities

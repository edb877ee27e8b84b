import Mathlib

/-!
A machine that reads words with a stack: a word is skipped, pushed, or takes the last word that
was pushed away with it. The same words can be removed from the list itself, with an index that
steps back for each one that is gone.
-/
namespace SnapCpp.StackMachine

/-- What a word does. -/
inductive Kind where
  | skip
  | push
  | pop
deriving DecidableEq

variable {α : Type}

def run (kind : α → Kind) : List α → List α → Option (List α)
  | stack, [] => some stack
  | stack, a :: rest =>
      match kind a with
      | .skip => run kind stack rest
      | .push => run kind (a :: stack) rest
      | .pop =>
          match stack with
          | [] => none
          | _ :: stack => run kind stack rest

def normalise (kind : α → Kind) (l : List α) : Option (List α) := (run kind [] l).map List.reverse

def pushes (kind : α → Kind) (l : List α) : ℕ := l.countP (kind · = .push)

def pops (kind : α → Kind) (l : List α) : ℕ := l.countP (kind · = .pop)

def removeFrom (kind : α → Kind) (l : List α) (i : ℕ) : Option (List α) :=
  if h : i < l.length then
    match kind l[i] with
    | .skip => removeFrom kind (l.eraseIdx i) i
    | .push => removeFrom kind l (i + 1)
    | .pop =>
        if i = 0 ∨ l.length < 2 then none
        else removeFrom kind ((l.eraseIdx i).eraseIdx (i - 1)) (i - 1)
  else some l
termination_by l.length - i
decreasing_by
  · rw [List.length_eraseIdx_of_lt h]
    omega
  · omega
  · rw [List.length_eraseIdx_of_lt (by rw [List.length_eraseIdx_of_lt h]; omega),
      List.length_eraseIdx_of_lt h]
    omega

section Words

variable {kind : α → Kind} {a : α} {stack rest l r : List α}

theorem run_skip (h : kind a = .skip) : run kind stack (a :: rest) = run kind stack rest := by
  rw [run.eq_def]
  simp only [h]

theorem run_push (h : kind a = .push) :
    run kind stack (a :: rest) = run kind (a :: stack) rest := by
  rw [run.eq_def]
  simp only [h]

theorem run_pop_nil (h : kind a = .pop) : run kind [] (a :: rest) = none := by
  rw [run, h]

theorem run_pop_cons {b : α} (h : kind a = .pop) :
    run kind (b :: stack) (a :: rest) = run kind stack rest := by
  rw [run, h]

theorem counts_cons (a : α) (l : List α) :
    pushes kind (a :: l) = pushes kind l + (if kind a = .push then 1 else 0) ∧
      pops kind (a :: l) = pops kind l + (if kind a = .pop then 1 else 0) := by
  constructor <;> simp [pushes, pops, List.countP_cons]

/-- The stack is too small where the words up to some place take more away than they push. -/
theorem run_eq_none_iff : run kind stack l = none ↔
    ∃ front, front <+: l ∧ stack.length + pushes kind front < pops kind front := by
  induction l generalizing stack with
  | nil =>
    simp [run, pops, pushes]
  | cons a rest ih =>
    have hcons : (∃ front, front <+: a :: rest ∧
        stack.length + pushes kind front < pops kind front) ↔
        ∃ front, front <+: rest ∧
          stack.length + pushes kind (a :: front) < pops kind (a :: front) := by
      constructor
      · rintro ⟨front, hfront, hlt⟩
        cases front with
        | nil => simp [pops] at hlt
        | cons b front =>
          obtain ⟨rfl, hrest⟩ := List.cons_prefix_cons.mp hfront
          exact ⟨front, hrest, hlt⟩
      · rintro ⟨front, hfront, hlt⟩
        exact ⟨a :: front, List.cons_prefix_cons.mpr ⟨rfl, hfront⟩, hlt⟩
    rw [hcons]
    have hcount := @counts_cons α kind a
    cases ha : kind a with
    | skip =>
      rw [run_skip ha, ih]
      refine exists_congr fun front => and_congr_right fun _ => ?_
      rw [(hcount front).1, (hcount front).2, ha]
      simp
    | push =>
      rw [run_push ha, ih]
      refine exists_congr fun front => and_congr_right fun _ => ?_
      rw [(hcount front).1, (hcount front).2, ha]
      simp only [List.length_cons, if_true, reduceCtorEq, if_false]
      omega
    | pop =>
      cases stack with
      | nil =>
        rw [run_pop_nil ha]
        refine iff_of_true rfl ⟨[], List.nil_prefix, ?_⟩
        rw [(hcount []).1, (hcount []).2, ha]
        simp [pushes]
      | cons b stack =>
        rw [run_pop_cons ha, ih]
        refine exists_congr fun front => and_congr_right fun _ => ?_
        rw [(hcount front).1, (hcount front).2, ha]
        simp only [List.length_cons, if_true, reduceCtorEq, if_false]
        omega

/-- How many words are left. -/
theorem length_run (h : run kind stack l = some r) :
    r.length + pops kind l = stack.length + pushes kind l := by
  induction l generalizing stack with
  | nil =>
    cases h
    rfl
  | cons a rest ih =>
    rw [(counts_cons a rest).1, (counts_cons a rest).2]
    cases ha : kind a with
    | skip =>
      rw [run_skip ha] at h
      simpa using ih h
    | push =>
      rw [run_push ha] at h
      have hlength := ih h
      simp only [List.length_cons, if_true, reduceCtorEq, if_false] at hlength ⊢
      omega
    | pop =>
      cases stack with
      | nil =>
        rw [run_pop_nil ha] at h
        cases h
      | cons b stack =>
        rw [run_pop_cons ha] at h
        have hlength := ih h
        simp only [List.length_cons, if_true, reduceCtorEq, if_false] at hlength ⊢
        omega

theorem mem_run (h : run kind stack l = some r) :
    ∀ a ∈ r, a ∈ stack ∨ a ∈ l ∧ kind a = .push := by
  induction l generalizing stack with
  | nil =>
    cases h
    exact fun a ha => Or.inl ha
  | cons b rest ih =>
    intro a hmem
    cases hb : kind b with
    | skip =>
      rw [run_skip hb] at h
      exact (ih h a hmem).imp_right (And.imp_left (List.mem_cons_of_mem b))
    | push =>
      rw [run_push hb] at h
      rcases ih h a hmem with hstack | hrest
      · rcases List.mem_cons.mp hstack with rfl | hstack
        · exact Or.inr ⟨List.mem_cons_self, hb⟩
        · exact Or.inl hstack
      · exact Or.inr (hrest.imp_left (List.mem_cons_of_mem b))
    | pop =>
      cases stack with
      | nil =>
        rw [run_pop_nil hb] at h
        cases h
      | cons c stack =>
        rw [run_pop_cons hb] at h
        exact (ih h a hmem).imp (List.mem_cons_of_mem c) (And.imp_left (List.mem_cons_of_mem b))

theorem run_congr {kind' : α → Kind} (h : ∀ a ∈ l, kind a = kind' a) :
    run kind stack l = run kind' stack l := by
  induction l generalizing stack with
  | nil => rfl
  | cons a rest ih =>
    obtain ⟨ha, hrest⟩ := List.forall_mem_cons.mp h
    cases hkind : kind' a with
    | skip => rw [run_skip hkind, run_skip (ha.trans hkind), ih hrest]
    | push => rw [run_push hkind, run_push (ha.trans hkind), ih hrest]
    | pop =>
      cases stack with
      | nil => rw [run_pop_nil hkind, run_pop_nil (ha.trans hkind)]
      | cons b stack => rw [run_pop_cons hkind, run_pop_cons (ha.trans hkind), ih hrest]

/-- Removing words from a list leaves what the stack machine leaves. -/
theorem removeFrom_eq (stack rest : List α) :
    removeFrom kind (stack.reverse ++ rest) stack.length =
      (run kind stack rest).map List.reverse := by
  induction rest generalizing stack with
  | nil =>
    rw [removeFrom, dif_neg (by simp), List.append_nil]
    rfl
  | cons a rest ih =>
    have hindex : (stack.reverse ++ a :: rest)[stack.length]? = some a := by
      rw [List.getElem?_append_right (by simp)]
      simp
    have hlt : stack.length < (stack.reverse ++ a :: rest).length := by simp
    have hget : (stack.reverse ++ a :: rest)[stack.length] = a := by
      rw [List.getElem?_eq_getElem hlt] at hindex
      exact Option.some.inj hindex
    have herase : (stack.reverse ++ a :: rest).eraseIdx stack.length = stack.reverse ++ rest := by
      rw [List.eraseIdx_append_of_length_le (by simp)]
      simp
    rw [removeFrom, dif_pos hlt, hget]
    cases ha : kind a with
    | skip =>
      simp only
      rw [herase, ih, run_skip ha]
    | push =>
      have hnext := ih (a :: stack)
      rw [List.reverse_cons, List.append_assoc, List.singleton_append, List.length_cons] at hnext
      simp only
      rw [hnext, run_push ha]
    | pop =>
      cases stack with
      | nil =>
        simp only
        rw [if_pos (Or.inl List.length_nil), run_pop_nil ha]
        rfl
      | cons b stack =>
        have hback : (stack.reverse ++ b :: rest).eraseIdx stack.length =
            stack.reverse ++ rest := by
          rw [List.eraseIdx_append_of_length_le (by simp)]
          simp
        have htwo : ¬ ((b :: stack).length = 0 ∨
            ((b :: stack).reverse ++ a :: rest).length < 2) := by
          simp only [List.length_cons, List.length_append, List.length_reverse]
          omega
        simp only
        rw [if_neg htwo, herase, List.reverse_cons, List.append_assoc, List.singleton_append,
          List.length_cons, Nat.add_sub_cancel, hback, ih, run_pop_cons ha]

theorem removeFrom_zero (l : List α) : removeFrom kind l 0 = normalise kind l :=
  removeFrom_eq [] l

end Words

end SnapCpp.StackMachine

import Mathlib

/-!
The edit distance of lists: the least number of insertions, deletions and substitutions that turn
one list into another. It has the recursion on the first elements that dynamic programs use, and
the same recursion on the last elements, since edits can be read backwards.
-/
namespace SnapCpp.EditDistance

variable {α : Type*}

/-- One insertion, deletion or substitution. -/
inductive Edit : List α → List α → Prop
  | insert (u v : List α) (a : α) : Edit (u ++ v) (u ++ a :: v)
  | delete (u v : List α) (a : α) : Edit (u ++ a :: v) (u ++ v)
  | substitute (u v : List α) (a b : α) : Edit (u ++ a :: v) (u ++ b :: v)

inductive Edits : ℕ → List α → List α → Prop
  | refl (s : List α) : Edits 0 s s
  | step {n : ℕ} {s t u : List α} : Edit s t → Edits n t u → Edits (n + 1) s u

structure IsDistance (n : ℕ) (s t : List α) : Prop where
  edits : Edits n s t
  least : ∀ m, Edits m s t → n ≤ m

section Scripts

variable {s t u : List α} {m n : ℕ}

theorem Edit.cons (a : α) (h : Edit s t) : Edit (a :: s) (a :: t) := by
  cases h with
  | insert u v b => exact .insert (a :: u) v b
  | delete u v b => exact .delete (a :: u) v b
  | substitute u v b c => exact .substitute (a :: u) v b c

theorem Edit.symm (h : Edit s t) : Edit t s := by
  cases h with
  | insert u v a => exact .delete u v a
  | delete u v a => exact .insert u v a
  | substitute u v a b => exact .substitute u v b a

theorem Edit.reverse (h : Edit s t) : Edit s.reverse t.reverse := by
  cases h with
  | insert u v a =>
    simp only [List.reverse_append, List.reverse_cons, List.append_assoc, List.singleton_append]
    exact .insert _ _ _
  | delete u v a =>
    simp only [List.reverse_append, List.reverse_cons, List.append_assoc, List.singleton_append]
    exact .delete _ _ _
  | substitute u v a b =>
    simp only [List.reverse_append, List.reverse_cons, List.append_assoc, List.singleton_append]
    exact .substitute _ _ _ _

theorem Edits.map {f : List α → List α} (hf : ∀ {s t}, Edit s t → Edit (f s) (f t))
    (h : Edits n s t) : Edits n (f s) (f t) := by
  induction h with
  | refl s => exact .refl _
  | step hfirst _ ih => exact .step (hf hfirst) ih

theorem Edits.cons (a : α) (h : Edits n s t) : Edits n (a :: s) (a :: t) := h.map (Edit.cons a)

theorem Edits.reverse (h : Edits n s t) : Edits n s.reverse t.reverse := h.map Edit.reverse

theorem Edits.trans (h : Edits m s t) (h' : Edits n t u) : Edits (m + n) s u := by
  induction h with
  | refl s => rwa [Nat.zero_add]
  | @step m s t _ hfirst _ ih =>
    rw [Nat.add_right_comm]
    exact .step hfirst (ih h')

theorem Edits.symm (h : Edits n s t) : Edits n t s := by
  induction h with
  | refl s => exact .refl s
  | step hfirst _ ih => exact ih.trans (.step hfirst.symm (.refl _))

theorem edits_zero (h : Edits 0 s t) : s = t := by
  cases h
  rfl

theorem IsDistance.unique (h : IsDistance m s t) (h' : IsDistance n s t) : m = n :=
  Nat.le_antisymm (h.least n h'.edits) (h'.least m h.edits)

theorem IsDistance.symm (h : IsDistance n s t) : IsDistance n t s :=
  ⟨h.edits.symm, fun m hm => h.least m hm.symm⟩

theorem IsDistance.reverse (h : IsDistance n s t) : IsDistance n s.reverse t.reverse := by
  refine ⟨h.edits.reverse, fun m hm => h.least m ?_⟩
  have hback := hm.reverse
  rwa [List.reverse_reverse, List.reverse_reverse] at hback

theorem IsDistance.eq_zero_iff (h : IsDistance n s t) : n = 0 ↔ s = t := by
  constructor
  · rintro rfl
    exact edits_zero h.edits
  · rintro rfl
    exact Nat.le_zero.mp (h.least 0 (.refl s))

theorem IsDistance.triangle {k : ℕ} (h : IsDistance m s t) (h' : IsDistance n t u)
    (h'' : IsDistance k s u) : k ≤ m + n :=
  h''.least _ (h.edits.trans h'.edits)

end Scripts

section Recursion

variable [DecidableEq α]

def lev : List α → List α → ℕ
  | [], t => t.length
  | s, [] => s.length
  | x :: s, y :: t =>
      min (lev s (y :: t) + 1) (min (lev (x :: s) t + 1) (lev s t + if x = y then 0 else 1))
termination_by s t => s.length + t.length

variable {s t u v w : List α} {x y a b : α} {n : ℕ}

theorem lev_nil_left (t : List α) : lev [] t = t.length := by rw [lev]

theorem lev_nil_right (s : List α) : lev s [] = s.length := by
  cases s with
  | nil => rw [lev]
  | cons x s => rw [lev]; simp

theorem lev_cons (x y : α) (s t : List α) : lev (x :: s) (y :: t) =
    min (lev s (y :: t) + 1) (min (lev (x :: s) t + 1) (lev s t + if x = y then 0 else 1)) := by
  rw [lev]

theorem cost_le (x y : α) : (if x = y then 0 else 1) ≤ 1 := by
  split_ifs <;> omega

theorem lev_cons_left_le (x : α) (s t : List α) : lev (x :: s) t ≤ lev s t + 1 := by
  cases t with
  | nil => rw [lev_nil_right, lev_nil_right, List.length_cons]
  | cons y t =>
    rw [lev_cons]
    exact min_le_left _ _

theorem lev_cons_right_le (s : List α) (y : α) (t : List α) : lev s (y :: t) ≤ lev s t + 1 := by
  cases s with
  | nil => rw [lev_nil_left, lev_nil_left, List.length_cons]
  | cons x s =>
    rw [lev_cons]
    exact (min_le_right _ _).trans (min_le_left _ _)

theorem lev_le_cons_left (a : α) (v t : List α) : lev v t ≤ lev (a :: v) t + 1 := by
  induction t with
  | nil =>
    rw [lev_nil_right, lev_nil_right, List.length_cons]
    omega
  | cons y t ih =>
    have hright := lev_cons_right_le v y t
    rw [lev_cons]
    omega

theorem lev_substitute_le (a b : α) (v t : List α) : lev (a :: v) t ≤ lev (b :: v) t + 1 := by
  induction t with
  | nil =>
    rw [lev_nil_right, lev_nil_right, List.length_cons, List.length_cons]
    omega
  | cons y t ih =>
    have hcost := cost_le a y
    rw [lev_cons, lev_cons]
    omega

theorem lev_cons_congr (c : α) (h : ∀ t, lev v t ≤ lev w t + 1) (t : List α) :
    lev (c :: v) t ≤ lev (c :: w) t + 1 := by
  induction t with
  | nil =>
    have hnil := h []
    rw [lev_nil_right, lev_nil_right] at hnil ⊢
    rw [List.length_cons, List.length_cons]
    omega
  | cons y t ih =>
    have hfirst := h (y :: t)
    have hrest := h t
    rw [lev_cons, lev_cons]
    omega

theorem lev_le_of_edit (h : Edit s t) (u : List α) : lev s u ≤ lev t u + 1 := by
  have hcongr : ∀ {v w : List α} (u : List α), (∀ t, lev v t ≤ lev w t + 1) →
      ∀ t, lev (u ++ v) t ≤ lev (u ++ w) t + 1 := by
    intro v w u hvw
    induction u with
    | nil => exact hvw
    | cons c u ih => exact lev_cons_congr c ih
  cases h with
  | insert p v a => exact hcongr p (lev_le_cons_left a v) u
  | delete p v a => exact hcongr p (lev_cons_left_le a v) u
  | substitute p v a b => exact hcongr p (lev_substitute_le a b v) u

theorem lev_self (s : List α) : lev s s = 0 := by
  induction s with
  | nil => rw [lev_nil_left, List.length_nil]
  | cons x s ih =>
    rw [lev_cons, ih]
    simp

theorem lev_le_of_edits (h : Edits n s t) : lev s t ≤ n := by
  have hto : ∀ u, lev s u ≤ n + lev t u := by
    induction h with
    | refl s => exact fun u => (Nat.zero_add _).ge
    | step hfirst _ ih =>
      intro u
      have hedit := lev_le_of_edit hfirst u
      have hrest := ih u
      omega
  have hself := hto t
  rwa [lev_self, Nat.add_zero] at hself

/-- The recursion finds a script. -/
theorem edits_lev (s t : List α) : Edits (lev s t) s t := by
  fun_induction lev s t with
  | case1 t =>
    induction t with
    | nil => exact .refl []
    | cons a t ih => exact .step (.insert [] [] a) (ih.cons a)
  | case2 s hs =>
    clear hs
    induction s with
    | nil => exact .refl []
    | cons a s ih => exact .step (.delete [] s a) ih
  | case3 x s y t ihdelete ihinsert ihboth =>
    rcases min_choice (lev s (y :: t) + 1)
      (min (lev (x :: s) t + 1) (lev s t + if x = y then 0 else 1)) with h | h
    · rw [h]
      exact .step (.delete [] s x) ihdelete
    · rw [h]
      rcases min_choice (lev (x :: s) t + 1) (lev s t + if x = y then 0 else 1) with h | h
      · rw [h]
        exact .step (.insert [] (x :: s) y) (ihinsert.cons y)
      · rw [h]
        split_ifs with heq
        · subst heq
          exact ihboth.cons x
        · exact .step (.substitute [] s x y) (ihboth.cons y)

/-- The recursion gives the distance. -/
theorem isDistance_lev (s t : List α) : IsDistance (lev s t) s t :=
  ⟨edits_lev s t, fun _ h => lev_le_of_edits h⟩

theorem isDistance_iff : IsDistance n s t ↔ n = lev s t := by
  constructor
  · exact fun h => h.unique (isDistance_lev s t)
  · rintro rfl
    exact isDistance_lev s t

theorem lev_symm (s t : List α) : lev s t = lev t s :=
  (isDistance_lev s t).unique (isDistance_lev t s).symm

theorem lev_reverse (s t : List α) : lev s.reverse t.reverse = lev s t :=
  (isDistance_lev s.reverse t.reverse).unique (isDistance_lev s t).reverse

/-- The recursion on the last elements. -/
theorem lev_concat (x y : α) (s t : List α) : lev (s ++ [x]) (t ++ [y]) =
    min (lev s (t ++ [y]) + 1)
      (min (lev (s ++ [x]) t + 1) (lev s t + if x = y then 0 else 1)) := by
  have hcons := lev_cons x y s.reverse t.reverse
  rw [← List.reverse_concat, ← List.reverse_concat, lev_reverse, lev_reverse, lev_reverse,
    lev_reverse] at hcons
  exact hcons

theorem length_le_lev (s t : List α) : t.length ≤ s.length + lev s t := by
  fun_induction lev s t with
  | case1 t => rw [List.length_nil, Nat.zero_add]
  | case2 s hs => exact Nat.zero_le _
  | case3 x s y t ihdelete ihinsert ihboth =>
    simp only [List.length_cons] at ihdelete ihinsert ihboth ⊢
    omega

theorem lev_le_max (s t : List α) : lev s t ≤ max s.length t.length := by
  fun_induction lev s t with
  | case1 t => exact le_max_right _ _
  | case2 s hs => exact le_max_left _ _
  | case3 x s y t ihdelete ihinsert ihboth =>
    have hcost := cost_le x y
    simp only [List.length_cons] at ihdelete ihinsert ihboth ⊢
    omega

end Recursion

end SnapCpp.EditDistance

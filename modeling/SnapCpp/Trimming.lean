import Mathlib

/-!
Lists without the blank elements at both ends, and lists cut at the elements with a property. A
trimmed list does not depend on the blanks around it, and a trimmed sublist is a sublist of the
trimmed list.
-/
namespace SnapCpp.Trimming

variable {α : Type} {p : α → Bool} {a b l m t : List α} {c : α}

theorem rdropWhile_append_all (ht : ∀ c ∈ t, p c) : (a ++ t).rdropWhile p = a.rdropWhile p := by
  induction t using List.reverseRecOn with
  | nil => rw [List.append_nil]
  | append_singleton front c ih =>
    rw [← List.append_assoc, List.rdropWhile_concat_pos _ _ _ (ht c (by simp))]
    exact ih (fun d hd => ht d (List.mem_append_left _ hd))

theorem rdropWhile_append_cons (hc : p c = false) :
    (a ++ c :: b).rdropWhile p = a ++ c :: b.rdropWhile p := by
  induction b using List.reverseRecOn with
  | nil =>
    rw [List.rdropWhile_concat_neg _ _ _ (by simp [hc]), List.rdropWhile_nil]
  | append_singleton front d ih =>
    rw [← List.cons_append, ← List.append_assoc, List.rdropWhile_concat, List.rdropWhile_concat]
    split_ifs with hd
    · exact ih
    · simp

theorem dropWhile_append_cons (hc : p c = false) :
    (a ++ c :: b).dropWhile p = a.dropWhile p ++ c :: b := by
  induction a with
  | nil => rw [List.nil_append, List.dropWhile_cons_of_neg (by simp [hc])]; rfl
  | cons d rest ih =>
    rw [List.cons_append, List.dropWhile_cons, List.dropWhile_cons]
    split_ifs with hd
    · exact ih
    · rfl

theorem dropWhile_all (h : ∀ c ∈ a, p c) : a.dropWhile p = [] :=
  List.dropWhile_eq_nil_iff.mpr h

def trim (p : α → Bool) (l : List α) : List α := (l.dropWhile p).rdropWhile p

def trailing (p : α → Bool) (l : List α) : List α := (l.dropWhile p).rtakeWhile p

/-- No blank stands at either end. -/
structure Tight (p : α → Bool) (l : List α) : Prop where
  head : ∀ c ∈ l.head?, p c = false
  last : ∀ c ∈ l.getLast?, p c = false

theorem takeWhile_trim_trailing (p : α → Bool) (l : List α) :
    l.takeWhile p ++ (trim p l ++ trailing p l) = l := by
  rw [trim, trailing, List.rdropWhile_append_rtakeWhile, List.takeWhile_append_dropWhile]

theorem mem_trailing (h : c ∈ trailing p l) : p c := List.mem_rtakeWhile_imp h

theorem trim_isInfix (p : α → Bool) (l : List α) : trim p l <:+: l :=
  ⟨l.takeWhile p, trailing p l, by rw [List.append_assoc, takeWhile_trim_trailing]⟩

theorem trim_sublist_self (p : α → Bool) (l : List α) : (trim p l).Sublist l :=
  (trim_isInfix p l).sublist

theorem mem_trim (h : c ∈ l) (hc : p c = false) : c ∈ trim p l := by
  rw [← takeWhile_trim_trailing p l, List.mem_append, List.mem_append] at h
  rcases h with h | h | h
  · rw [List.mem_takeWhile_imp h] at hc
    cases hc
  · exact h
  · rw [mem_trailing h] at hc
    cases hc

theorem trim_eq_nil_iff : trim p l = [] ↔ ∀ c ∈ l, p c := by
  rw [trim, List.rdropWhile_eq_nil_iff]
  constructor
  · intro h c hc
    rw [← List.takeWhile_append_dropWhile (p := p) (l := l), List.mem_append] at hc
    rcases hc with hc | hc
    · exact List.mem_takeWhile_imp hc
    · exact h c hc
  · exact fun h c hc => h c ((List.dropWhile_sublist p).subset hc)

theorem tight_nil : Tight p ([] : List α) := by
  constructor
  · intro c hc
    cases hc
  · intro c hc
    cases hc

/-- The elements between the blanks do not depend on the blanks. -/
theorem trim_append (ha : ∀ c ∈ a, p c) (hm : Tight p m) (hb : ∀ c ∈ b, p c) :
    trim p (a ++ (m ++ b)) = m := by
  rw [trim, List.dropWhile_append, dropWhile_all ha, if_pos List.isEmpty_nil]
  cases m with
  | nil => rw [List.nil_append, dropWhile_all hb, List.rdropWhile_nil]
  | cons c m =>
    have hc := hm.head c rfl
    rw [List.cons_append, List.dropWhile_cons_of_neg (by simp [hc]), ← List.cons_append,
      rdropWhile_append_all hb, List.rdropWhile_eq_self_iff]
    intro hne
    have hlast := hm.last _ (List.getLast?_eq_getLast_of_ne_nil hne)
    simp [hlast]

theorem tight_trim (p : α → Bool) (l : List α) : Tight p (trim p l) := by
  constructor
  · intro c hc
    obtain ⟨m, hm⟩ : ∃ m, trim p l = c :: m := List.head?_eq_some_iff.mp hc
    have hdrop : l.dropWhile p = c :: (m ++ trailing p l) := by
      rw [← List.cons_append, ← hm]
      exact List.rdropWhile_append_rtakeWhile.symm
    have hne : l.dropWhile p ≠ [] := by simp [hdrop]
    have hhead := List.head_dropWhile_not p hne
    simpa [hdrop] using hhead
  · intro c hc
    have hne : trim p l ≠ [] := by
      intro hnil
      rw [hnil] at hc
      cases hc
    rw [List.getLast?_eq_getLast_of_ne_nil hne] at hc
    have hlast := List.rdropWhile_last_not p (l.dropWhile p) hne
    have heq := Option.some.inj hc
    rw [← heq]
    simpa [trim] using hlast

theorem trim_of_tight (h : Tight p m) : trim p m = m := by
  simpa using trim_append (a := []) (b := []) (by simp) h (by simp)

theorem trim_sublist (p : α → Bool) (h : l.Sublist m) : (trim p l).Sublist (trim p m) := by
  have htight := tight_trim p l
  have hsub : (trim p l).Sublist (m.takeWhile p ++ (trim p m ++ trailing p m)) := by
    rw [takeWhile_trim_trailing]
    exact (trim_sublist_self p l).trans h
  obtain ⟨l₁, l', heq, h₁, h'⟩ := List.sublist_append_iff.mp hsub
  obtain ⟨l₂, l₃, rfl, h₂, h₃⟩ := List.sublist_append_iff.mp h'
  -- what comes from the blanks at the ends would be an end of the trimmed list
  have hnil₁ : l₁ = [] := by
    cases l₁ with
    | nil => rfl
    | cons c l₁ =>
      have hc := htight.head c (by rw [heq]; rfl)
      rw [List.mem_takeWhile_imp (h₁.subset List.mem_cons_self)] at hc
      cases hc
  have hnil₃ : l₃ = [] := by
    rcases List.eq_nil_or_concat l₃ with rfl | ⟨l₃, c, rfl⟩
    · rfl
    · have hc := htight.last c (by rw [heq]; simp)
      rw [mem_trailing (h₃.subset (by simp))] at hc
      cases hc
  rw [heq, hnil₁, hnil₃, List.nil_append, List.append_nil]
  exact h₂

/-- A function that keeps what is blank keeps what is trimmed. -/
theorem trim_map {β : Type} {q : β → Bool} {f : α → β} (h : ∀ c ∈ l, q (f c) = p c) :
    trim q (l.map f) = (trim p l).map f := by
  have hall : ∀ m : List α, m ⊆ l → (∀ c ∈ m, p c) → ∀ d ∈ m.map f, q d := by
    intro m hm hblank d hd
    obtain ⟨c, hc, rfl⟩ := List.mem_map.mp hd
    rw [h c (hm hc), hblank c hc]
  have htight := tight_trim p l
  have hsub := (trim_sublist_self p l).subset
  have hparts := congrArg (List.map f) (takeWhile_trim_trailing p l)
  rw [List.map_append, List.map_append] at hparts
  rw [← hparts]
  refine trim_append
    (hall _ (List.takeWhile_sublist p).subset fun c hc => List.mem_takeWhile_imp hc)
    ⟨?_, ?_⟩ (hall _ ?_ fun c hc => mem_trailing hc)
  · intro d hd
    rw [List.head?_map] at hd
    obtain ⟨c, hc, rfl⟩ := Option.map_eq_some_iff.mp hd
    rw [h c (hsub (List.mem_of_head? hc)), htight.head c hc]
  · intro d hd
    rw [List.getLast?_map] at hd
    obtain ⟨c, hc, rfl⟩ := Option.map_eq_some_iff.mp hd
    rw [h c (hsub (List.mem_of_getLast? hc)), htight.last c hc]
  · intro c hc
    rw [← takeWhile_trim_trailing p l]
    exact List.mem_append_right _ (List.mem_append_right _ hc)

theorem eq_of_splitOnP_singleton (h : l.splitOnP p = [m]) : l = m ∧ ∀ c ∈ l, p c = false := by
  induction l generalizing m with
  | nil =>
    rw [List.splitOnP_nil] at h
    exact ⟨(List.cons.inj h).1, by simp⟩
  | cons c l ih =>
    rw [List.splitOnP_cons_eq_if_modifyHead] at h
    split_ifs at h with hc
    · exact absurd (List.cons.inj h).2 (List.splitOnP_ne_nil p l)
    · obtain ⟨m', rest, hl⟩ := List.exists_cons_of_ne_nil (List.splitOnP_ne_nil p l)
      rw [hl, List.modifyHead_cons] at h
      obtain ⟨rfl, rfl⟩ := List.cons.inj h
      obtain ⟨rfl, hall⟩ := ih hl
      exact ⟨rfl, List.forall_mem_cons.mpr ⟨by simpa using hc, hall⟩⟩

/-- A piece has elements of the list, and none it is cut at. -/
theorem mem_splitOnP (h : m ∈ l.splitOnP p) : ∀ c ∈ m, c ∈ l ∧ p c = false := by
  induction l generalizing m with
  | nil =>
    rw [List.splitOnP_nil, List.mem_singleton] at h
    rw [h]
    intro c hc
    cases hc
  | cons c l ih =>
    have hrest : ∀ m ∈ l.splitOnP p, ∀ d ∈ m, d ∈ c :: l ∧ p d = false := fun m hm d hd =>
      ⟨List.mem_cons_of_mem c (ih hm d hd).1, (ih hm d hd).2⟩
    rw [List.splitOnP_cons_eq_if_modifyHead] at h
    split_ifs at h with hc
    · rcases List.mem_cons.mp h with rfl | h
      · intro d hd
        cases hd
      · exact hrest m h
    · obtain ⟨m', rest, hl⟩ := List.exists_cons_of_ne_nil (List.splitOnP_ne_nil p l)
      rw [hl] at h hrest
      rcases List.mem_cons.mp h with rfl | h
      · rw [List.forall_mem_cons]
        exact ⟨⟨List.mem_cons_self, by simpa using hc⟩, hrest m' List.mem_cons_self⟩
      · exact hrest m (List.mem_cons_of_mem m' h)

/-- Some elements stand between two of the pieces. -/
theorem exists_cut {l₁ l₂ : List (List α)} (h : l.splitOnP p = l₁ ++ l₂) (h₁ : l₁ ≠ [])
    (h₂ : l₂ ≠ []) : ∃ a c b, l = a ++ c :: b ∧ p c ∧ a.splitOnP p = l₁ ∧ b.splitOnP p = l₂ := by
  induction l generalizing l₁ with
  | nil =>
    rw [List.splitOnP_nil] at h
    obtain ⟨m, l₁, rfl⟩ := List.exists_cons_of_ne_nil h₁
    exact absurd (List.append_eq_nil_iff.mp (List.cons.inj h).2.symm).2 h₂
  | cons c l ih =>
    rw [List.splitOnP_cons_eq_if_modifyHead] at h
    obtain ⟨m, l₁, rfl⟩ := List.exists_cons_of_ne_nil h₁
    split_ifs at h with hc
    · obtain ⟨rfl, hrest⟩ := List.cons.inj h
      cases l₁ with
      | nil => exact ⟨[], c, l, rfl, hc, List.splitOnP_nil, hrest⟩
      | cons m' l₁ =>
        obtain ⟨a, d, b, rfl, hd, ha, hb⟩ := ih hrest (List.cons_ne_nil _ _)
        refine ⟨c :: a, d, b, rfl, hd, ?_, hb⟩
        rw [List.splitOnP_cons_eq_if_modifyHead, if_pos hc, ha]
    · obtain ⟨m', rest, hl⟩ := List.exists_cons_of_ne_nil (List.splitOnP_ne_nil p l)
      rw [hl, List.modifyHead_cons] at h
      obtain ⟨rfl, rfl⟩ := List.cons.inj h
      obtain ⟨a, d, b, rfl, hd, ha, hb⟩ :=
        ih (show _ = (m' :: l₁) ++ l₂ from hl) (List.cons_ne_nil _ _)
      refine ⟨c :: a, d, b, rfl, hd, ?_, hb⟩
      rw [List.splitOnP_cons_eq_if_modifyHead, if_neg hc, ha, List.modifyHead_cons]

end SnapCpp.Trimming

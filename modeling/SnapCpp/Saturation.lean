import Mathlib

/-!
Lists of states that are worked on in passes. A pass looks at each state once: it stays, or other
states come after it, one of them in its place and the others at the end of the list. The passes
end when every state stays.
-/
namespace SnapCpp.Saturation

inductive Turn (S : Type) where
  | stays
  | becomes (inPlace : Option S) (added : List S)

variable {S : Type}

def Turn.next : Turn S → List S
  | stays => []
  | becomes inPlace added => inPlace.toList ++ added

def Turn.kept (s : S) : Turn S → Option S
  | stays => some s
  | becomes inPlace _ => inPlace

def Turn.added : Turn S → List S
  | stays => []
  | becomes _ added => added

variable (turn : S → Turn S)

def Stable (s : S) : Prop := turn s = .stays

def Next (after s : S) : Prop := after ∈ (turn s).next

def pass (l : List S) : List S :=
  l.filterMap (fun s => (turn s).kept s) ++ l.flatMap (fun s => (turn s).added)

def stays : Turn S → Bool
  | .stays => true
  | .becomes .. => false

def saturate : ℕ → List S → Option (List S)
  | 0, l => if l.all (fun s => stays (turn s)) then some l else none
  | n + 1, l => if l.all (fun s => stays (turn s)) then some l else saturate n (pass turn l)

variable {turn} {l r : List S} {s t : S} {n : ℕ}

theorem stays_iff : stays (turn s) = true ↔ Stable turn s := by
  unfold Stable
  cases turn s <;> simp [stays]

theorem all_stays_iff :
    (l.all (fun s => stays (turn s)) = true) ↔ ∀ s ∈ l, Stable turn s := by
  simp only [List.all_eq_true, stays_iff]

theorem Stable.not_next (h : Stable turn s) : ¬ Next turn t s := by
  unfold Next
  rw [h]
  exact List.not_mem_nil

theorem mem_pass : t ∈ pass turn l ↔ ∃ s ∈ l, (Stable turn s ∧ t = s) ∨ Next turn t s := by
  have hone : ∀ s : S, ((turn s).kept s = some t ∨ t ∈ (turn s).added) ↔
      ((Stable turn s ∧ t = s) ∨ Next turn t s) := by
    intro s
    unfold Stable Next
    cases hs : turn s with
    | stays => simp [Turn.kept, Turn.added, Turn.next, eq_comm]
    | becomes inPlace added => simp [Turn.kept, Turn.added, Turn.next]
  unfold pass
  rw [List.mem_append, List.mem_filterMap, List.mem_flatMap]
  constructor
  · rintro (⟨s, hs, h⟩ | ⟨s, hs, h⟩)
    · exact ⟨s, hs, (hone s).mp (Or.inl h)⟩
    · exact ⟨s, hs, (hone s).mp (Or.inr h)⟩
  · rintro ⟨s, hs, h⟩
    rcases (hone s).mpr h with h | h
    · exact Or.inl ⟨s, hs, h⟩
    · exact Or.inr ⟨s, hs, h⟩

theorem pass_of_stable (h : ∀ s ∈ l, Stable turn s) : pass turn l = l := by
  induction l with
  | nil => rfl
  | cons s l ih =>
    obtain ⟨hs, hl⟩ := List.forall_mem_cons.mp h
    have hrest := ih hl
    unfold pass at hrest ⊢
    unfold Stable at hs
    simp only [List.filterMap_cons, List.flatMap_cons, hs, Turn.kept, Turn.added, List.nil_append,
      List.cons_append]
    exact congrArg (s :: ·) hrest

theorem saturate_of_stable (h : ∀ s ∈ l, Stable turn s) : saturate turn n l = some l := by
  have hall := all_stays_iff.mpr h
  cases n <;> simp [saturate, hall]

theorem saturate_succ_of_not (h : ¬ ∀ s ∈ l, Stable turn s) :
    saturate turn (n + 1) l = saturate turn n (pass turn l) := by
  rw [saturate, if_neg (mt all_stays_iff.mp h)]

/-- More passes change nothing once they have ended. -/
theorem saturate_mono {m : ℕ} (hnm : n ≤ m) (h : saturate turn n l = some r) :
    saturate turn m l = some r := by
  induction n generalizing m l with
  | zero =>
    unfold saturate at h
    split_ifs at h with hall
    cases h
    exact saturate_of_stable (all_stays_iff.mp hall)
  | succ n ih =>
    obtain ⟨m, rfl⟩ := Nat.exists_eq_add_of_le hnm
    by_cases hstable : ∀ s ∈ l, Stable turn s
    · rw [saturate_of_stable hstable] at h ⊢
      exact h
    · rw [saturate_succ_of_not hstable] at h
      rw [Nat.add_right_comm, saturate_succ_of_not hstable]
      exact ih (Nat.le_add_right n m) h

/-- The passes keep the stable states that can be reached, and nothing else. -/
theorem mem_saturate (h : saturate turn n l = some r) :
    t ∈ r ↔ Stable turn t ∧ ∃ s ∈ l, Relation.ReflTransGen (fun a b => Next turn b a) s t := by
  have hstable : ∀ l : List S, (∀ s ∈ l, Stable turn s) →
      (t ∈ l ↔ Stable turn t ∧
        ∃ s ∈ l, Relation.ReflTransGen (fun a b => Next turn b a) s t) := by
    intro l hl
    constructor
    · intro ht
      exact ⟨hl t ht, t, ht, Relation.ReflTransGen.refl⟩
    · rintro ⟨_, s, hs, hreach⟩
      rcases Relation.ReflTransGen.cases_head hreach with rfl | ⟨u, hu, _⟩
      · exact hs
      · exact absurd hu (hl s hs).not_next
  induction n generalizing l with
  | zero =>
    unfold saturate at h
    split_ifs at h with hall
    cases h
    exact hstable _ (all_stays_iff.mp hall)
  | succ n ih =>
    by_cases hl : ∀ s ∈ l, Stable turn s
    · rw [saturate_of_stable hl] at h
      cases h
      exact hstable _ hl
    · rw [saturate_succ_of_not hl] at h
      refine (ih h).trans ?_
      refine and_congr_right fun ht => ?_
      constructor
      · rintro ⟨s, hs, hreach⟩
        obtain ⟨u, hu, ⟨_, rfl⟩ | hnext⟩ := mem_pass.mp hs
        · exact ⟨s, hu, hreach⟩
        · exact ⟨u, hu, Relation.ReflTransGen.head hnext hreach⟩
      · rintro ⟨s, hs, hreach⟩
        rcases Relation.ReflTransGen.cases_head hreach with rfl | ⟨u, hu, hrest⟩
        · exact ⟨s, mem_pass.mpr ⟨s, hs, Or.inl ⟨ht, rfl⟩⟩, Relation.ReflTransGen.refl⟩
        · exact ⟨u, mem_pass.mpr ⟨s, hs, Or.inr hu⟩, hrest⟩

/-- What every state after one keeps holds of the states that the passes leave. -/
theorem saturate_invariant (P : S → Prop) (h : saturate turn n l = some r) (hl : ∀ s ∈ l, P s)
    (hnext : ∀ s t, P s → Next turn t s → P t) : ∀ s ∈ r, P s := by
  intro t ht
  obtain ⟨-, s, hs, hreach⟩ := (mem_saturate h).mp ht
  have hps := hl s hs
  clear ht
  induction hreach with
  | refl => exact hps
  | tail _ hstep ih => exact hnext _ _ ih hstep

def Within (turn : S → Turn S) : ℕ → S → Prop
  | 0, s => Stable turn s
  | n + 1, s => ∀ t, Next turn t s → Within turn n t

theorem Within.succ (h : Within turn n s) : Within turn (n + 1) s := by
  induction n generalizing s with
  | zero => exact fun t ht => absurd ht (Stable.not_next h)
  | succ n ih => exact fun t ht => ih (h t ht)

theorem Within.mono {m : ℕ} (hnm : n ≤ m) (h : Within turn n s) : Within turn m s := by
  induction hnm with
  | refl => exact h
  | step _ ih => exact ih.succ

theorem exists_within_all (h : ∀ s ∈ l, ∃ n, Within turn n s) :
    ∃ n, ∀ s ∈ l, Within turn n s := by
  induction l with
  | nil => exact ⟨0, by simp⟩
  | cons s rest ih =>
    obtain ⟨⟨n, hn⟩, hrest⟩ := List.forall_mem_cons.mp h
    obtain ⟨m, hm⟩ := ih hrest
    refine ⟨max n m, List.forall_mem_cons.mpr ⟨hn.mono (Nat.le_max_left n m), ?_⟩⟩
    exact fun u hu => (hm u hu).mono (Nat.le_max_right n m)

theorem exists_within (h : Acc (Next turn) s) : ∃ n, Within turn n s := by
  induction h with
  | intro s _ ih =>
    obtain ⟨n, hn⟩ := exists_within_all (l := (turn s).next) ih
    exact ⟨n + 1, hn⟩

theorem saturate_of_within (h : ∀ s ∈ l, Within turn n s) : ∃ r, saturate turn n l = some r := by
  induction n generalizing l with
  | zero => exact ⟨l, saturate_of_stable h⟩
  | succ n ih =>
    by_cases hl : ∀ s ∈ l, Stable turn s
    · exact ⟨l, saturate_of_stable hl⟩
    · rw [saturate_succ_of_not hl]
      refine ih (fun t ht => ?_)
      obtain ⟨s, hs, ⟨hstable, rfl⟩ | hnext⟩ := mem_pass.mp ht
      · exact Within.mono (Nat.zero_le n) (n := 0) hstable
      · exact h s hs t hnext

/-- The passes end when no state has an endless sequence of states after it. -/
theorem exists_saturate (h : ∀ s ∈ l, Acc (Next turn) s) :
    ∃ n r, saturate turn n l = some r := by
  obtain ⟨n, hn⟩ := exists_within_all (fun s hs => exists_within (h s hs))
  exact ⟨n, saturate_of_within hn⟩

end SnapCpp.Saturation

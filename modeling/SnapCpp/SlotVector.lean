import Mathlib

/-!
Vectors of slots. The handle of a slot is its place. A slot that is released leaves a hole
that keeps the places of the others, and the holes at the end are dropped, so that the
next handle is one more than the largest that is in use.
-/
namespace SnapCpp.SlotVector

variable {α : Type*}

def release (l : List (Option α)) (i : ℕ) : List (Option α) :=
  (l.set i none).rdropWhile Option.isNone

def nextHandle (handles : Finset ℕ) : ℕ := handles.sup (· + 1)

structure Tracks (l : List (Option α)) (handles : Finset ℕ) : Prop where
  slots : ∀ i, i ∈ handles ↔ ∃ a, l[i]? = some (some a)
  compact : l.rdropWhile Option.isNone = l

theorem lt_nextHandle {handles : Finset ℕ} {i : ℕ} (h : i ∈ handles) : i < nextHandle handles :=
  Finset.le_sup (α := ℕ) (f := (· + 1)) h

/-- Dropping holes from the end moves no slot that is in use. -/
theorem getElem?_dropHoles (l : List (Option α)) (i : ℕ) (a : α) :
    (l.rdropWhile Option.isNone)[i]? = some (some a) ↔ l[i]? = some (some a) := by
  induction l using List.reverseRecOn with
  | nil => rw [List.rdropWhile_nil]
  | append_singleton l slot ih =>
    cases slot with
    | some b => rw [List.rdropWhile_concat_neg _ _ _ (by simp)]
    | none =>
      rw [List.rdropWhile_concat_pos _ _ _ rfl, ih]
      constructor
      · intro h
        rw [List.getElem?_append_left (List.getElem?_eq_some_iff.mp h).1, h]
      · intro h
        rcases lt_trichotomy i l.length with hi | hi | hi
        · rwa [List.getElem?_append_left hi] at h
        · rw [hi, List.getElem?_concat_length] at h
          cases h
        · rw [List.getElem?_eq_none (by
            rw [List.length_append, List.length_singleton]
            omega)] at h
          cases h

variable {l : List (Option α)} {handles : Finset ℕ}

theorem Tracks.nil : Tracks ([] : List (Option α)) ∅ := by
  refine ⟨?_, rfl⟩
  intro i
  simp

theorem Tracks.length_eq (h : Tracks l handles) : l.length = nextHandle handles := by
  refine le_antisymm ?_ (Finset.sup_le ?_)
  · cases l using List.reverseRecOn with
    | nil => exact Nat.zero_le _
    | append_singleton l slot =>
      cases slot with
      | none =>
        have hcompact := h.compact
        rw [List.rdropWhile_concat_pos _ _ _ rfl] at hcompact
        have hle := (List.rdropWhile_prefix (Option.isNone (α := α)) l).length_le
        rw [hcompact, List.length_append, List.length_singleton] at hle
        omega
      | some a =>
        have hlast := lt_nextHandle ((h.slots l.length).mpr ⟨a, List.getElem?_concat_length⟩)
        rwa [List.length_append, List.length_singleton]
  · intro i hi
    obtain ⟨a, ha⟩ := (h.slots i).mp hi
    exact (List.getElem?_eq_some_iff.mp ha).1

theorem Tracks.push (h : Tracks l handles) (a : α) :
    Tracks (l ++ [some a]) (insert (nextHandle handles) handles) := by
  refine ⟨?_, List.rdropWhile_concat_neg _ _ _ (by simp)⟩
  intro i
  rw [Finset.mem_insert, h.slots, ← h.length_eq]
  constructor
  · rintro (rfl | ⟨b, hb⟩)
    · exact ⟨a, List.getElem?_concat_length⟩
    · exact ⟨b, by rw [List.getElem?_append_left (List.getElem?_eq_some_iff.mp hb).1, hb]⟩
  · rintro ⟨b, hb⟩
    rcases lt_trichotomy i l.length with hi | hi | hi
    · rw [List.getElem?_append_left hi] at hb
      exact .inr ⟨b, hb⟩
    · exact .inl hi
    · rw [List.getElem?_eq_none (by
            rw [List.length_append, List.length_singleton]
            omega)] at hb
      cases hb

theorem Tracks.release (h : Tracks l handles) (i : ℕ) :
    Tracks (release l i) (handles.erase i) := by
  refine ⟨?_, List.rdropWhile_idempotent _ _⟩
  intro j
  rw [Finset.mem_erase, h.slots, SlotVector.release]
  simp only [getElem?_dropHoles]
  constructor
  · rintro ⟨hne, a, ha⟩
    exact ⟨a, by rw [List.getElem?_set_ne (Ne.symm hne), ha]⟩
  · rintro ⟨a, ha⟩
    by_cases hne : j = i
    · rw [hne, List.getElem?_set_self'] at ha
      cases hslot : l[i]? <;> simp [hslot] at ha
    · rw [List.getElem?_set_ne (Ne.symm hne)] at ha
      exact ⟨hne, a, ha⟩

end SnapCpp.SlotVector

import SnapCpp.FuzzyCompare

/-!
The search of `fuzzy_string_compare.cpp`. Its loops come to the windows that start at `i` less the
length of the needle and have the length `i + j`, where `i` and `j` were meant to be the end of the
shortest window and what is added to it: past the first position a window is longer than it should
be, and the last position is never tried. So parts of the haystack are missed.
-/
namespace SnapCpp.FuzzyCompare

open EditDistance

variable {α : Type*} [DecidableEq α]

def substr (s : List α) (pos count : ℕ) : List α := (s.drop pos).take count

def isNear (needle : List α) (distance : ℤ) (s : List α) : Except FuzzyError Bool := do
  let d ← levenshteinDistance s needle
  return decide (d ≤ distance)

/-- The function throws what `invalidParameters` holds. A `size_t` is large enough for the sums of
positions and distances. -/
def strstrWithLevenshteinDistance (haystack needle : List α) (distance : ℤ) :
    Except FuzzyError Bool :=
  if distance ≤ 0 then
    .error (.invalidParameters ("Levenshtein distance in strstr_with_levenshtein_distance() " ++
      "needs to be > 0"))
  else if haystack.length ≤ needle.length then isNear needle distance haystack
  else
    let haystackLength := haystack.length
    let needleLength := needle.length
    (List.range' needleLength (haystackLength - needleLength)).anyM fun i =>
      let maxDistance := min (i + distance.toNat) haystackLength - i
      (List.range (maxDistance + 1)).anyM fun j =>
        isNear needle distance (substr haystack (i - needleLength) (i + j))

def Occurs (haystack needle : List α) (distance : ℤ) : Prop :=
  ∃ before part after, haystack = before ++ part ++ after ∧ needle.length ≤ part.length ∧
    (part.length : ℤ) ≤ needle.length + distance ∧
    ∃ d : ℕ, IsDistance d part needle ∧ (d : ℤ) ≤ distance

def OccursEarly (haystack needle : List α) (distance : ℤ) : Prop :=
  ∃ before part after, haystack = before ++ part ++ after ∧ needle.length ≤ part.length ∧
    (part.length : ℤ) ≤ needle.length + distance ∧
    (∃ d : ℕ, IsDistance d part needle ∧ (d : ℤ) ≤ distance) ∧
    needle.length < part.length + after.length ∧
    (needle.length + before.length ≤ part.length ∨ after = [])

def windows (haystack needle : List α) (distance : ℤ) : List (List α) :=
  (List.range' needle.length (haystack.length - needle.length)).flatMap fun i =>
    (List.range (min (i + distance.toNat) haystack.length - i + 1)).map fun j =>
      substr haystack (i - needle.length) (i + j)

/-- No comparison overflows before a window is near enough. -/
def Reached (needle : List α) (distance : ℤ) : List (List α) → Prop
  | [] => True
  | w :: ws => ¬ Overflows w needle ∧
      ((∀ d : ℕ, IsDistance d w needle → distance < d) → Reached needle distance ws)

section Loops

variable {needle : List α} {distance : ℤ} {β : Type*} {ε : Type}

theorem anyM_append (p : β → Except ε Bool) (xs ys : List β) :
    (xs ++ ys).anyM p = xs.anyM p >>= fun found => if found then pure true else ys.anyM p := by
  induction xs with
  | nil => rfl
  | cons x xs ih =>
    rw [List.cons_append, List.anyM_cons, List.anyM_cons, ih]
    cases p x with
    | error e => rfl
    | ok b => cases b <;> rfl

theorem anyM_map {γ : Type*} (p : γ → Except ε Bool) (f : β → γ) (xs : List β) :
    (xs.map f).anyM p = xs.anyM fun x => p (f x) := by
  induction xs with
  | nil => rfl
  | cons x xs ih => rw [List.map_cons, List.anyM_cons, List.anyM_cons, ih]

theorem anyM_flatMap {γ : Type*} (p : γ → Except ε Bool) (f : β → List γ)
    (xs : List β) : (xs.flatMap f).anyM p = xs.anyM fun x => (f x).anyM p := by
  induction xs with
  | nil => rfl
  | cons x xs ih => rw [List.flatMap_cons, anyM_append, List.anyM_cons, ih]

/-- Both loops together go through the windows. -/
theorem strstr_eq {haystack : List α} (hdistance : 0 < distance)
    (hlong : needle.length < haystack.length) :
    strstrWithLevenshteinDistance haystack needle distance =
      (windows haystack needle distance).anyM (isNear needle distance) := by
  rw [strstrWithLevenshteinDistance, if_neg (by omega), if_neg (by omega), windows, anyM_flatMap]
  simp only [anyM_map]

end Loops

section Windows

variable {haystack needle w : List α} {ws : List (List α)} {distance : ℤ} {b : Bool}

theorem isNear_eq (h : ¬ Overflows w needle) :
    isNear needle distance w = .ok (decide ((lev w needle : ℤ) ≤ distance)) := by
  by_cases heq : w = needle
  · subst heq
    rw [isNear, levenshteinDistance, if_pos rfl, lev_self]
    rfl
  · have hmax : max w.length needle.length < 2 ^ 31 - 1 := not_le.mp fun hmax => h ⟨heq, hmax⟩
    rw [isNear, levenshteinDistance_eq (lt_of_le_of_lt (le_max_left _ _) hmax)
      (lt_of_le_of_lt (le_max_right _ _) hmax)]
    rfl

theorem not_overflows_of_isNear (hw : w ≠ []) (hneedle : needle ≠ [])
    (h : isNear needle distance w = .ok b) : ¬ Overflows w needle := by
  rw [isNear] at h
  obtain ⟨d, hd, -⟩ := bind_eq_ok h
  exact not_overflows_of_ok hw hneedle hd

theorem reached_cons : Reached needle distance (w :: ws) ↔ ¬ Overflows w needle ∧
    (distance < lev w needle → Reached needle distance ws) := by
  rw [Reached]
  simp only [isDistance_iff, forall_eq]

theorem anyM_isNear (hneedle : needle ≠ []) (hws : ∀ w ∈ ws, w ≠ []) :
    ws.anyM (isNear needle distance) = .ok b ↔
      Reached needle distance ws ∧ (b = true ↔ ∃ w ∈ ws, (lev w needle : ℤ) ≤ distance) := by
  induction ws with
  | nil =>
    have hnone : ¬ ∃ w ∈ ([] : List (List α)), (lev w needle : ℤ) ≤ distance := by simp
    rw [List.anyM_nil, iff_false_right hnone]
    cases b
    · exact iff_of_true rfl ⟨trivial, Bool.false_ne_true⟩
    · exact iff_of_false (fun h => by cases h) fun h => h.2 rfl
  | cons w ws ih =>
    obtain ⟨hw, hws⟩ := List.forall_mem_cons.mp hws
    rw [List.anyM_cons, reached_cons, List.exists_mem_cons_iff]
    by_cases hover : Overflows w needle
    · refine iff_of_false (fun h => ?_) fun h => h.1.1 hover
      obtain ⟨found, hfound, -⟩ := bind_eq_ok h
      exact not_overflows_of_isNear hw hneedle hfound hover
    · rw [isNear_eq hover]
      by_cases hnear : (lev w needle : ℤ) ≤ distance
      · rw [decide_eq_true hnear]
        have hreached : ¬ Overflows w needle ∧
            (distance < lev w needle → Reached needle distance ws) :=
          ⟨hover, fun hfar => absurd hnear (not_le.mpr hfar)⟩
        rw [and_iff_right hreached, iff_true_right (Or.inl hnear)]
        cases b
        · exact iff_of_false (fun h => by cases h) Bool.false_ne_true
        · exact iff_of_true rfl rfl
      · rw [decide_eq_false hnear]
        have hrest := ih hws
        rw [or_iff_right hnear, and_iff_right hover, forall_prop_of_true (not_le.mp hnear)]
        exact hrest

omit [DecidableEq α] in
theorem mem_windows : w ∈ windows haystack needle distance ↔ ∃ p j,
    p < haystack.length - needle.length ∧
    j ≤ min (needle.length + p + distance.toNat) haystack.length - (needle.length + p) ∧
    w = substr haystack p (needle.length + p + j) := by
  simp only [windows, List.mem_flatMap, List.mem_map, List.mem_range, List.mem_range'_1]
  constructor
  · rintro ⟨i, hi, j, hj, rfl⟩
    obtain ⟨p, rfl⟩ := Nat.exists_eq_add_of_le hi.1
    rw [Nat.add_sub_cancel_left]
    exact ⟨p, j, by omega, by omega, rfl⟩
  · rintro ⟨p, j, hp, hj, rfl⟩
    refine ⟨needle.length + p, ⟨by omega, by omega⟩, j, by omega, ?_⟩
    rw [Nat.add_sub_cancel_left]

theorem near_window_iff (hdistance : 0 < distance) (hlong : needle.length < haystack.length) :
    (∃ w ∈ windows haystack needle distance, (lev w needle : ℤ) ≤ distance) ↔
      OccursEarly haystack needle distance := by
  have hd : (distance.toNat : ℤ) = distance := Int.toNat_of_nonneg hdistance.le
  constructor
  · rintro ⟨w, hw, hnear⟩
    obtain ⟨p, j, hp, hj, hwindow⟩ := mem_windows.mp hw
    have hlength : w.length = min (needle.length + p + j) (haystack.length - p) := by
      rw [hwindow, substr, List.length_take, List.length_drop]
    have hadded := length_le_lev needle w
    rw [lev_symm] at hadded
    refine ⟨haystack.take p, w, (haystack.drop p).drop (needle.length + p + j), ?_, by omega,
      by omega, ⟨lev w needle, isDistance_lev _ _, hnear⟩, ?_, ?_⟩
    · rw [hwindow, substr, List.append_assoc, List.take_append_drop, List.take_append_drop]
    · rw [List.length_drop, List.length_drop]
      omega
    · rw [List.length_take, List.drop_eq_nil_iff, List.length_drop]
      omega
  · rintro ⟨before, part, after, rfl, hpart, hpart', ⟨d, hd', hnear⟩, hstart, hend⟩
    rw [isDistance_iff] at hd'
    subst hd'
    refine ⟨part, mem_windows.mpr ⟨before.length, ?_⟩, hnear⟩
    simp only [List.length_append]
    rcases hend with hend | rfl
    · refine ⟨part.length - (needle.length + before.length), by omega, by omega, ?_⟩
      rw [Nat.add_sub_cancel' hend, substr, List.append_assoc, List.drop_left, List.take_left]
    · refine ⟨min (needle.length + before.length + distance.toNat)
        (before.length + part.length) - (needle.length + before.length), ?_, by
          rw [List.length_nil, Nat.add_zero], ?_⟩
      · rw [List.length_nil] at hstart ⊢
        omega
      · rw [substr, List.append_nil, List.drop_left, List.take_of_length_le (by omega)]

omit [DecidableEq α] in
theorem OccursEarly.occurs (h : OccursEarly haystack needle distance) :
    Occurs haystack needle distance := by
  obtain ⟨before, part, after, heq, hpart, hpart', hnear, -⟩ := h
  exact ⟨before, part, after, heq, hpart, hpart', hnear⟩

omit [DecidableEq α] in
theorem windows_ne_nil (hneedle : needle ≠ []) (hw : w ∈ windows haystack needle distance) :
    w ≠ [] := by
  obtain ⟨p, j, hp, -, rfl⟩ := mem_windows.mp hw
  have hpos := List.length_pos_iff.mpr hneedle
  refine List.ne_nil_of_length_pos ?_
  rw [substr, List.length_take, List.length_drop]
  omega

omit [DecidableEq α] in
theorem windows_eq_cons (hlong : needle.length < haystack.length) :
    ∃ ws, windows haystack needle distance = haystack.take needle.length :: ws := by
  obtain ⟨k, hk⟩ := Nat.exists_eq_add_of_lt hlong
  have hcount : haystack.length - needle.length = k + 1 := by omega
  rw [windows, hcount, List.range'_succ, List.flatMap_cons, List.range_succ_eq_map, List.map_cons,
    Nat.sub_self, Nat.add_zero, substr, List.drop_zero, List.cons_append]
  exact ⟨_, rfl⟩

end Windows

section Search

variable {haystack needle : List α} {distance : ℤ}

/-- The search returns what it documents if and only if a part that is near enough is not missed
and no comparison overflows before one is found. -/
theorem strstr_iff (hdistance : 0 < distance) (hlong : needle.length < haystack.length) :
    (∃ b, strstrWithLevenshteinDistance haystack needle distance = .ok b ∧
      (b = true ↔ Occurs haystack needle distance)) ↔
    (Occurs haystack needle distance → OccursEarly haystack needle distance) ∧
      Reached needle distance (windows haystack needle distance) := by
  rw [strstr_eq hdistance hlong]
  by_cases hneedle : needle = []
  · subst hneedle
    have hempty : OccursEarly haystack [] distance :=
      ⟨[], [], haystack, rfl, le_rfl, le_add_of_nonneg_right hdistance.le,
        ⟨0, isDistance_iff.mpr (lev_self []).symm, hdistance.le⟩,
        by rwa [List.length_nil, Nat.zero_add], Or.inl le_rfl⟩
    obtain ⟨ws, hws⟩ : ∃ ws, windows haystack [] distance = haystack.take 0 :: ws :=
      windows_eq_cons hlong
    rw [hws, List.take_zero, reached_cons, lev_self]
    refine iff_of_true ⟨true, ?_, iff_of_true rfl hempty.occurs⟩
      ⟨fun _ => hempty, fun hover => hover.1 rfl, fun hfar => absurd hdistance hfar.asymm⟩
    rw [List.anyM_cons, isNear_eq fun hover => hover.1 rfl, lev_self,
      decide_eq_true (by exact hdistance.le)]
    rfl
  · have hwindows : ∀ w ∈ windows haystack needle distance, w ≠ [] :=
      fun w => windows_ne_nil hneedle
    have hrun : ∀ b, (windows haystack needle distance).anyM (isNear needle distance) = .ok b ↔ _ :=
      fun b => anyM_isNear hneedle hwindows
    simp only [hrun, near_window_iff hdistance hlong]
    constructor
    · rintro ⟨b, ⟨hreached, hearly⟩, hb⟩
      exact ⟨fun hoccurs => hearly.mp (hb.mpr hoccurs), hreached⟩
    · rintro ⟨hearly, hreached⟩
      classical
      refine ⟨decide (OccursEarly haystack needle distance),
        ⟨hreached, decide_eq_true_iff⟩, decide_eq_true_iff.trans ⟨OccursEarly.occurs, hearly⟩⟩

theorem strstr_iff_last : (∃ b, strstrWithLevenshteinDistance [1, 2, 3] [3] 1 = .ok b ∧
      (b = true ↔ Occurs [1, 2, 3] [3] 1)) ↔
    (Occurs [1, 2, 3] [3] 1 → OccursEarly [1, 2, 3] [3] 1) ∧
      Reached [3] 1 (windows [1, 2, 3] [3] 1) :=
  strstr_iff (by decide) (by decide)

/-- A needle in the middle of the haystack is not found. -/
theorem strstr_middle : ¬ ∀ (haystack needle : List ℕ) (distance : ℤ), 0 < distance →
    needle.length < haystack.length →
    ∃ b, strstrWithLevenshteinDistance haystack needle distance = .ok b ∧
      (b = true ↔ Occurs haystack needle distance) := by
  intro h
  obtain ⟨b, hrun, hb⟩ := h [0, 0, 0, 1, 2, 0, 0] [1, 2] 1 (by decide) (by decide)
  have hmissed : strstrWithLevenshteinDistance [0, 0, 0, 1, 2, 0, 0] [1, 2] 1 = .ok false := by
    rfl
  have hoccurs : Occurs [0, 0, 0, 1, 2, 0, 0] [1, 2] 1 :=
    ⟨[0, 0, 0], [1, 2], [0, 0], rfl, le_rfl, by decide, 0,
      isDistance_iff.mpr (lev_self [1, 2]).symm, by decide⟩
  rw [hmissed] at hrun
  cases hrun
  exact Bool.false_ne_true (hb.mpr hoccurs)

end Search

end SnapCpp.FuzzyCompare

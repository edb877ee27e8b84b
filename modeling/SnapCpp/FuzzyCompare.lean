import SnapCpp.EditDistance
import SnapCpp.Ensures

/-!
The Levenshtein distance of `fuzzy_string_compare.cpp`. The two rows are vectors of `int`, so the
sums are checked: C++ says nothing about a sum that does not fit. Nothing else can go wrong, and
what the rows hold is the edit distance of the prefixes read so far.
-/
namespace SnapCpp.FuzzyCompare

open EditDistance

/-- How a comparison or a search fails to return. -/
inductive FuzzyError
  | overflow
  | invalidParameters (message : String)
deriving DecidableEq, Repr

variable {α : Type*} [DecidableEq α]

/-- A size stored in an `int`. -/
def narrow (n : ℕ) : ℤ := (BitVec.ofNat 32 n).toInt

/-- A sum of two `int`. -/
def addInt (a b : ℤ) : Except FuzzyError ℤ :=
  if -(2 ^ 31) ≤ a + b ∧ a + b < 2 ^ 31 then .ok (a + b) else .error .overflow

/-- The values of `v1` after its first, from those of `v0`: `c` is `s[i]` and `left` is `v1[j]`. -/
def nextRow (c : α) : ℤ → List ℤ → List α → Except FuzzyError (List ℤ)
  | left, d :: u :: v0, y :: t => do
    let cost : ℤ := if c = y then 0 else 1
    let inserted ← addInt left 1
    let deleted ← addInt u 1
    let both ← addInt d cost
    let value := min inserted (min deleted both)
    let v1 ← nextRow c value (u :: v0) t
    return value :: v1
  | _, _, _ => return []

/-- The loop over `s`, with the rows swapped at the end of each turn. -/
def rows : ℕ → List ℤ → List α → List α → Except FuzzyError (List ℤ)
  | _, v0, [], _ => return v0
  | i, v0, c :: s, t => do
    let first := narrow (i + 1)
    let v1 ← nextRow c first v0 t
    rows (i + 1) (first :: v1) s t

def levenshteinDistance (s t : List α) : Except FuzzyError ℤ :=
  if s = t then return 0
  else if s = [] then return narrow t.length
  else if t = [] then return narrow s.length
  else do
    let v0 ← rows 0 ((List.range (t.length + 1)).map narrow) s t
    return v0.getD t.length 0

theorem narrow_eq {n : ℕ} (h : n < 2 ^ 31) : narrow n = n := by
  have hmod : n % 2 ^ 32 = n := Nat.mod_eq_of_lt (by omega)
  have hlt : 2 * (BitVec.ofNat 32 n).toNat < 2 ^ 32 := by
    rw [BitVec.toNat_ofNat, hmod]
    omega
  rw [narrow, BitVec.toInt_eq_toNat_of_lt hlt, BitVec.toNat_ofNat, hmod]

theorem addInt_natCast {m n : ℕ} (h : m + n < 2 ^ 31) :
    addInt (m : ℤ) (n : ℤ) = .ok ((m + n : ℕ) : ℤ) := by
  rw [addInt, if_pos (by omega), Nat.cast_add]

theorem addInt_one {m : ℕ} (h : m + 1 < 2 ^ 31) : addInt (m : ℤ) 1 = .ok ((m + 1 : ℕ) : ℤ) :=
  addInt_natCast h

theorem ne_of_addInt_one {a b : ℤ} (h : addInt a 1 = .ok b) : a ≠ 2 ^ 31 - 1 := by
  rintro rfl
  cases h

section Rows

/-- The row of `p`: its distances from `q` and from the longer and longer prefixes of what follows
`q`. -/
def levRow (p q : List α) : List α → List ℤ
  | [] => [(lev p q : ℤ)]
  | y :: t => (lev p q : ℤ) :: levRow p (q ++ [y]) t

variable {c : α} {p q s t : List α}

theorem levRow_eq_cons (p q t : List α) : ∃ v, levRow p q t = (lev p q : ℤ) :: v := by
  cases t with
  | nil => exact ⟨[], rfl⟩
  | cons y t => exact ⟨levRow p (q ++ [y]) t, rfl⟩

theorem getD_levRow (p q t : List α) : (levRow p q t).getD t.length 0 = lev p (q ++ t) := by
  induction t generalizing q with
  | nil =>
    rw [List.append_nil]
    rfl
  | cons y t ih =>
    have hrest := ih (q ++ [y])
    rw [List.append_assoc, List.singleton_append] at hrest
    exact hrest

/-- One turn of the loop over `t`. -/
theorem nextRow_cons {left d u : ℤ} {v0 : List ℤ} {y : α} {inserted deleted both : ℤ}
    (hinserted : addInt left 1 = .ok inserted) (hdeleted : addInt u 1 = .ok deleted)
    (hboth : addInt d (if c = y then 0 else 1) = .ok both) :
    nextRow c left (d :: u :: v0) (y :: t) =
      (nextRow c (min inserted (min deleted both)) (u :: v0) t).map
        (min inserted (min deleted both) :: ·) := by
  rw [nextRow]
  simp only [hinserted, hdeleted, hboth]
  rfl

/-- The row of a text gives the row of the text with one more character. -/
theorem nextRow_levRow (hp : (p ++ [c]).length < 2 ^ 31 - 1)
    (hq : (q ++ t).length < 2 ^ 31 - 1) :
    ∃ v1, nextRow c (lev (p ++ [c]) q) (levRow p q t) t = .ok v1 ∧
      levRow (p ++ [c]) q t = (lev (p ++ [c]) q : ℤ) :: v1 := by
  induction t generalizing q with
  | nil => exact ⟨[], rfl, rfl⟩
  | cons y t ih =>
    rw [List.append_cons] at hq
    obtain ⟨v1, hnext, hrow⟩ := ih hq
    obtain ⟨v, hv⟩ := levRow_eq_cons p (q ++ [y]) t
    have hleft := lev_le_max (p ++ [c]) q
    have hup := lev_le_max p (q ++ [y])
    have hcorner := lev_le_max p q
    have hcost := cost_le c y
    simp only [List.length_append, List.length_singleton] at hp hq hleft hup
    have hinserted := addInt_one (m := lev (p ++ [c]) q) (by omega)
    have hdeleted := addInt_one (m := lev p (q ++ [y])) (by omega)
    have hboth := addInt_natCast (m := lev p q) (n := if c = y then 0 else 1) (by omega)
    rw [Nat.cast_ite, Nat.cast_zero, Nat.cast_one] at hboth
    have hvalue : min (((lev (p ++ [c]) q + 1 : ℕ) : ℤ)) (min ((lev p (q ++ [y]) + 1 : ℕ) : ℤ)
        ((lev p q + if c = y then 0 else 1 : ℕ) : ℤ)) = lev (p ++ [c]) (q ++ [y]) := by
      rw [lev_concat, min_left_comm, Nat.cast_min, Nat.cast_min]
    refine ⟨(lev (p ++ [c]) (q ++ [y]) : ℤ) :: v1, ?_, ?_⟩
    · rw [levRow, hv, nextRow_cons hinserted hdeleted hboth, hvalue, ← hv, hnext]
      rfl
    · rw [levRow, hrow]

theorem rows_levRow (hs : (p ++ s).length < 2 ^ 31 - 1) (ht : t.length < 2 ^ 31 - 1) :
    rows p.length (levRow p [] t) s t = .ok (levRow (p ++ s) [] t) := by
  induction s generalizing p with
  | nil =>
    rw [List.append_nil]
    rfl
  | cons c s ih =>
    rw [List.append_cons] at hs ⊢
    have hpc : (p ++ [c]).length < 2 ^ 31 - 1 := by
      rw [List.length_append] at hs
      omega
    have hfirst : narrow (p.length + 1) = lev (p ++ [c]) [] := by
      rw [List.length_append, List.length_singleton] at hpc
      rw [lev_nil_right, narrow_eq (by omega), List.length_append, List.length_singleton]
    obtain ⟨v1, hnext, hrow⟩ := nextRow_levRow (q := []) hpc ht
    have hrest := ih hs
    rw [List.length_append, List.length_singleton, hrow] at hrest
    rw [rows, hfirst]
    simp only [hnext]
    exact hrest

theorem map_narrow (q t : List α) (h : (q ++ t).length < 2 ^ 31) :
    (List.range' q.length (t.length + 1)).map narrow = levRow [] q t := by
  induction t generalizing q with
  | nil =>
    rw [List.append_nil] at h
    rw [levRow, lev_nil_left, ← narrow_eq h]
    rfl
  | cons y t ih =>
    rw [List.append_cons] at h
    have hrest := ih (q ++ [y]) h
    rw [List.length_append, List.length_singleton] at hrest
    rw [List.length_append, List.length_append, List.length_singleton] at h
    rw [levRow, List.length_cons, List.range'_succ, List.map_cons, hrest, lev_nil_left,
      narrow_eq (by omega)]

theorem levenshteinDistance_eq (hs : s.length < 2 ^ 31 - 1) (ht : t.length < 2 ^ 31 - 1) :
    levenshteinDistance s t = .ok (lev s t : ℤ) := by
  rw [levenshteinDistance]
  split_ifs with heq hsnil htnil
  · rw [heq, lev_self]
    rfl
  · rw [hsnil, lev_nil_left, narrow_eq (by omega)]
    rfl
  · rw [htnil, lev_nil_right, narrow_eq (by omega)]
    rfl
  · have hinitial : (List.range (t.length + 1)).map narrow = levRow [] [] t := by
      rw [List.range_eq_range']
      exact map_narrow [] t (by rw [List.nil_append]; omega)
    have hrows := rows_levRow (p := []) (s := s) (t := t) (by rwa [List.nil_append]) ht
    rw [List.nil_append, List.length_nil] at hrows
    rw [hinitial, hrows]
    have hlast := getD_levRow s [] t
    rw [List.nil_append] at hlast
    rw [← hlast]
    rfl

end Rows

section Overflow

variable {c : α} {s t : List α} {left : ℤ} {v0 v1 : List ℤ} {i : ℕ}

theorem of_nextRow (h : nextRow c left v0 t = .ok v1) (hlength : v0.length = t.length + 1) :
    v1.length = t.length ∧ (∀ u ∈ v0.tail, u ≠ 2 ^ 31 - 1) ∧ (t ≠ [] → left ≠ 2 ^ 31 - 1) := by
  induction t generalizing left v0 v1 with
  | nil =>
    obtain ⟨d, rfl⟩ := List.length_eq_one_iff.mp hlength
    cases h
    exact ⟨rfl, List.forall_mem_nil _, fun hne => absurd rfl hne⟩
  | cons y t ih =>
    match v0, hlength with
    | d :: u :: v0, hlength =>
      rw [nextRow] at h
      obtain ⟨inserted, hinserted, h⟩ := bind_eq_ok h
      obtain ⟨deleted, hdeleted, h⟩ := bind_eq_ok h
      obtain ⟨both, hboth, h⟩ := bind_eq_ok h
      obtain ⟨rest, hrest, h⟩ := bind_eq_ok h
      cases h
      obtain ⟨hrestlength, hrow, -⟩ := ih hrest (Nat.succ.inj hlength)
      refine ⟨congrArg Nat.succ hrestlength, ?_, fun _ => ne_of_addInt_one hinserted⟩
      exact List.forall_mem_cons.mpr ⟨ne_of_addInt_one hdeleted, hrow⟩

theorem of_rows (h : rows i v0 s t = .ok v1) (hlength : v0.length = t.length + 1) (ht : t ≠ []) :
    (s ≠ [] → ∀ u ∈ v0.tail, u ≠ 2 ^ 31 - 1) ∧
      ∀ k < s.length, narrow (i + k + 1) ≠ 2 ^ 31 - 1 := by
  induction s generalizing i v0 with
  | nil => exact ⟨fun hne => absurd rfl hne, fun k hk => absurd hk (Nat.not_lt_zero k)⟩
  | cons c s ih =>
    rw [rows] at h
    obtain ⟨row, hrow, h⟩ := bind_eq_ok h
    obtain ⟨hrowlength, htail, hleft⟩ := of_nextRow hrow hlength
    obtain ⟨-, hcount⟩ := ih h (congrArg Nat.succ hrowlength)
    refine ⟨fun _ => htail, fun k hk => ?_⟩
    cases k with
    | zero => exact hleft ht
    | succ k =>
      have hnext := hcount k (Nat.lt_of_succ_lt_succ hk)
      rwa [Nat.add_right_comm i 1 k] at hnext

def Overflows (s t : List α) : Prop := s ≠ t ∧ 2 ^ 31 - 1 ≤ max s.length t.length

instance (s t : List α) : Decidable (Overflows s t) := by
  unfold Overflows
  infer_instance

theorem not_overflows_of_ok {d : ℤ} (hs : s ≠ []) (ht : t ≠ [])
    (h : levenshteinDistance s t = .ok d) : ¬ Overflows s t := by
  rintro ⟨hne, hmax⟩
  rw [levenshteinDistance, if_neg hne, if_neg hs, if_neg ht] at h
  obtain ⟨v, hrows, -⟩ := bind_eq_ok h
  obtain ⟨hrow, hcount⟩ := of_rows hrows (by rw [List.length_map, List.length_range]) ht
  have hgreatest : narrow (2 ^ 31 - 1) = 2 ^ 31 - 1 := by decide
  rcases le_max_iff.mp hmax with hlong | hlong
  · exact hcount (2 ^ 31 - 2) (by omega) (by rwa [Nat.zero_add])
  · refine hrow hs _ ?_ hgreatest
    rw [List.range_succ_eq_map, List.map_cons, List.tail_cons, List.map_map]
    exact List.mem_map.mpr ⟨2 ^ 31 - 2, List.mem_range.mpr (by omega), rfl⟩

end Overflow

section Distance

variable {s t u : List α}

/-- The function returns the edit distance, so it is symmetric, zero for equal texts only, and
satisfies the triangle inequality. -/
theorem levenshteinDistance_isDistance (hs : s.length < 2 ^ 31 - 1) (ht : t.length < 2 ^ 31 - 1)
    (hu : u.length < 2 ^ 31 - 1) : ∃ a b c : ℕ,
      levenshteinDistance s t = .ok (a : ℤ) ∧ IsDistance a s t ∧
      levenshteinDistance t s = .ok (a : ℤ) ∧ (a = 0 ↔ s = t) ∧
      levenshteinDistance t u = .ok (b : ℤ) ∧ levenshteinDistance s u = .ok (c : ℤ) ∧
      c ≤ a + b := by
  refine ⟨lev s t, lev t u, lev s u, levenshteinDistance_eq hs ht, isDistance_lev s t, ?_,
    (isDistance_lev s t).eq_zero_iff, levenshteinDistance_eq ht hu, levenshteinDistance_eq hs hu,
    (isDistance_lev s t).triangle (isDistance_lev t u) (isDistance_lev s u)⟩
  rw [lev_symm]
  exact levenshteinDistance_eq ht hs

theorem levenshteinDistance_isDistance_digits : ∃ a b c : ℕ,
    levenshteinDistance [1, 2] [2, 3] = .ok (a : ℤ) ∧ IsDistance a [1, 2] [2, 3] ∧
    levenshteinDistance [2, 3] [1, 2] = .ok (a : ℤ) ∧ (a = 0 ↔ [1, 2] = [2, 3]) ∧
    levenshteinDistance [2, 3] [3] = .ok (b : ℤ) ∧ levenshteinDistance [1, 2] [3] = .ok (c : ℤ) ∧
    c ≤ a + b :=
  levenshteinDistance_isDistance (by decide) (by decide) (by decide)

/-- A text of 2 ^ 31 - 1 characters overflows the first row. -/
theorem levenshteinDistance_greatest : ¬ ∀ s t : List ℕ, s.length < 2 ^ 31 → t.length < 2 ^ 31 →
    ∃ a : ℕ, levenshteinDistance s t = .ok (a : ℤ) ∧ IsDistance a s t := by
  intro h
  have hlength : (List.replicate (2 ^ 31 - 1) 0).length = 2 ^ 31 - 1 := List.length_replicate
  have hnil : List.replicate (2 ^ 31 - 1) 0 ≠ [] := by
    intro hnil
    rw [hnil] at hlength
    cases hlength
  have hone : [1] ≠ List.replicate (2 ^ 31 - 1) 0 := by
    intro hone
    rw [← hone] at hlength
    cases hlength
  obtain ⟨a, ha, -⟩ := h [1] (List.replicate (2 ^ 31 - 1) 0) (by decide) (by omega)
  exact not_overflows_of_ok (by decide) hnil ha ⟨hone, le_max_iff.mpr (Or.inr hlength.ge)⟩

end Distance

end SnapCpp.FuzzyCompare

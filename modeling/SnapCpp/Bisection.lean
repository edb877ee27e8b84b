import Mathlib

/-!
A search that halves an interval of indexes. A probe tells whether what is looked for
is behind an index, at it or in front of it. Any index found is one that the probe
accepts; every such index is found only where the probe agrees with the order.
-/
namespace SnapCpp.Bisection

/-- Search `[i, j)`: a negative probe eliminates the first half and a positive one the
second half. -/
def bisect (probe : ℕ → ℤ) (i j : ℕ) : Option ℕ :=
  if i < j then
    let p := (j - i) / 2 + i
    if probe p < 0 then bisect probe (p + 1) j
    else if 0 < probe p then bisect probe i p
    else some p
  else none
termination_by j - i

variable {probe : ℕ → ℤ} {i j p t : ℕ}

theorem bisect_of_le (h : j ≤ i) : bisect probe i j = none := by
  rw [bisect, if_neg (Nat.not_lt.mpr h)]

theorem bisect_of_neg (h : i < j) (hprobe : probe ((j - i) / 2 + i) < 0) :
    bisect probe i j = bisect probe ((j - i) / 2 + i + 1) j := by
  rw [bisect, if_pos h]
  exact if_pos hprobe

theorem bisect_of_pos (h : i < j) (hprobe : 0 < probe ((j - i) / 2 + i)) :
    bisect probe i j = bisect probe i ((j - i) / 2 + i) := by
  rw [bisect, if_pos h]
  dsimp only
  rw [if_neg (by omega), if_pos hprobe]

theorem bisect_of_zero (h : i < j) (hprobe : probe ((j - i) / 2 + i) = 0) :
    bisect probe i j = some ((j - i) / 2 + i) := by
  rw [bisect, if_pos h]
  dsimp only
  rw [if_neg (by omega), if_neg (by omega)]

/-- What is found is in the interval, and the probe accepts it. -/
theorem bisect_sound (h : bisect probe i j = some p) : i ≤ p ∧ p < j ∧ probe p = 0 := by
  fun_induction bisect probe i j with
  | case1 i j hlt q hneg ih =>
    obtain ⟨hle, hp, hzero⟩ := ih h
    exact ⟨by omega, hp, hzero⟩
  | case2 i j hlt q hneg hpos ih =>
    obtain ⟨hle, hp, hzero⟩ := ih h
    exact ⟨hle, by omega, hzero⟩
  | case3 i j hlt q hneg hpos =>
    obtain rfl := Option.some.inj h
    exact ⟨by omega, by omega, by omega⟩
  | case4 => cases h

theorem bisect_eq_none (h : ∀ p, i ≤ p → p < j → probe p ≠ 0) : bisect probe i j = none := by
  cases hfound : bisect probe i j with
  | none => rfl
  | some p =>
    obtain ⟨hle, hlt, hzero⟩ := bisect_sound hfound
    exact absurd hzero (h p hle hlt)

/-- Where the probe agrees with the order, the one index that it accepts is found. -/
theorem bisect_complete (hi : i ≤ t) (hj : t < j) (hzero : probe t = 0)
    (hbelow : ∀ p, i ≤ p → p < t → probe p < 0) (habove : ∀ p, t < p → p < j → 0 < probe p) :
    bisect probe i j = some t := by
  fun_induction bisect probe i j with
  | case1 i j hlt q hneg ih =>
    have hqt : q < t := by
      by_contra hle
      rcases Nat.eq_or_lt_of_le (Nat.not_lt.mp hle) with rfl | hlt'
      · omega
      · have := habove q hlt' (by omega)
        omega
    exact ih hqt hj (fun p hp => hbelow p (by omega)) habove
  | case2 i j hlt q hneg hpos ih =>
    have hqt : t < q := by
      by_contra hle
      rcases Nat.eq_or_lt_of_le (Nat.not_lt.mp hle) with heq | hlt'
      · rw [heq] at hpos
        omega
      · have := hbelow q (by omega) hlt'
        omega
    exact ih hi hqt hbelow fun p hp hpq => habove p hp (by omega)
  | case3 i j hlt q hneg hpos =>
    rcases Nat.lt_trichotomy q t with hqt | hqt | hqt
    · have := hbelow q (by omega) hqt
      omega
    · rw [← hqt]
    · have := habove q hqt (by omega)
      omega
  | case4 => omega

end SnapCpp.Bisection

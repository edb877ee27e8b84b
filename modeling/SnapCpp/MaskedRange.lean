import Mathlib.Data.Nat.Bitwise

/-!
Numbers whose bits are given where a mask has bits, and intervals. Whether an
interval holds such a number is decided bit by bit from the lowest one up; all its
numbers are of that kind if and only if its ends agree from the lowest bit of the
mask on. Bytes are read as the digits of a number, the first one the highest.
-/
namespace SnapCpp.MaskedRange

/-- Whether some number of `k` bits from `a` to `b` has the bits `c` under the mask `m`. -/
def meets : ℕ → ℕ → ℕ → ℕ → ℕ → Bool
  | 0, a, _, _, c => a = 0 && c = 0
  | k + 1, a, b, m, c =>
      if m % 2 = 1 then
        c % 2 ≤ b && meets k ((a + 1 - c % 2) / 2) ((b - c % 2) / 2) (m / 2) (c / 2)
      else c % 2 = 0 && a ≤ b && meets k (a / 2) (b / 2) (m / 2) (c / 2)

section Numbers

variable {a b m c n : ℕ}

theorem and_eq_iff : n &&& m = c ↔
    n / 2 &&& m / 2 = c / 2 ∧ (if m % 2 = 1 then n % 2 else 0) = c % 2 := by
  have hlow : (n &&& m) % 2 = if m % 2 = 1 then n % 2 else 0 := by
    rw [← Nat.pow_one 2, Nat.and_mod_two_pow, Nat.pow_one]
    rcases Nat.mod_two_eq_zero_or_one n with hn | hn <;>
      rcases Nat.mod_two_eq_zero_or_one m with hm | hm <;> simp [hn, hm]
  rw [← Nat.and_div_two, ← hlow]
  omega

theorem meets_iff (k : ℕ) : meets k a b m c = true ↔
    ∃ n, n < 2 ^ k ∧ a ≤ n ∧ n ≤ b ∧ n &&& m = c := by
  induction k generalizing a b m c with
  | zero =>
    rw [meets, Bool.and_eq_true, decide_eq_true_iff, decide_eq_true_iff]
    constructor
    · rintro ⟨rfl, rfl⟩
      exact ⟨0, by simp⟩
    · rintro ⟨n, hn, ha, -, hc⟩
      have hzero : n = 0 := by omega
      rw [hzero, Nat.zero_and] at hc
      omega
  | succ k ih =>
    rw [meets]
    split_ifs with hm
    · rw [Bool.and_eq_true, decide_eq_true_iff, ih]
      constructor
      · rintro ⟨hb, n, hn, hlow, hhigh, hbits⟩
        refine ⟨2 * n + c % 2, by omega, by omega, by omega, ?_⟩
        rw [and_eq_iff, if_pos hm]
        exact ⟨by rwa [show (2 * n + c % 2) / 2 = n by omega], by omega⟩
      · rintro ⟨n, hn, hlow, hhigh, hbits⟩
        rw [and_eq_iff, if_pos hm] at hbits
        obtain ⟨hrest, hbit⟩ := hbits
        exact ⟨by omega, n / 2, by omega, by omega, by omega, hrest⟩
    · rw [Bool.and_eq_true, Bool.and_eq_true, decide_eq_true_iff, decide_eq_true_iff, ih]
      constructor
      · rintro ⟨⟨hc, hab⟩, n, hn, hlow, hhigh, hbits⟩
        -- the lowest bit is free: it is that of `a` at the lower end, and 0 elsewhere
        refine ⟨2 * n + if n = a / 2 then a % 2 else 0, ?_, ?_, ?_, ?_⟩
        · split_ifs <;> omega
        · split_ifs <;> omega
        · split_ifs <;> omega
        · rw [and_eq_iff, if_neg hm]
          refine ⟨?_, hc.symm⟩
          rwa [show (2 * n + if n = a / 2 then a % 2 else 0) / 2 = n by split_ifs <;> omega]
      · rintro ⟨n, hn, hlow, hhigh, hbits⟩
        rw [and_eq_iff, if_neg hm] at hbits
        obtain ⟨hrest, hbit⟩ := hbits
        exact ⟨⟨hbit.symm, by omega⟩, n / 2, by omega, by omega, by omega, hrest⟩

/-- All numbers of an interval have the bits when the first one has and the last one
does not differ from it in a bit of the mask or in one above. -/
theorem forall_and_eq_iff (h : a ≤ b) : (∀ n, a ≤ n → n ≤ b → n &&& m = c) ↔
    a &&& m = c ∧ ∀ i, m.testBit i = true → a / 2 ^ i = b / 2 ^ i := by
  constructor
  · intro hall
    refine ⟨hall a le_rfl h, fun i hi => ?_⟩
    by_contra hne
    have hpos := Nat.two_pow_pos i
    have hlt : a / 2 ^ i < b / 2 ^ i := lt_of_le_of_ne (Nat.div_le_div_right h) hne
    -- the next multiple of `2 ^ i` has another bit there
    have hlow : a ≤ (a / 2 ^ i + 1) * 2 ^ i := (Nat.lt_mul_of_div_lt (Nat.lt_succ_self _) hpos).le
    have hhigh : (a / 2 ^ i + 1) * 2 ^ i ≤ b :=
      (Nat.mul_le_mul_right _ hlt).trans (Nat.div_mul_le_self b _)
    have hsame : ((a / 2 ^ i + 1) * 2 ^ i &&& m).testBit i = (a &&& m).testBit i := by
      rw [hall _ hlow hhigh, hall a le_rfl h]
    rw [Nat.testBit_and, Nat.testBit_and, hi, Bool.and_true, Bool.and_true,
      Nat.testBit_eq_decide_div_mod_eq, Nat.testBit_eq_decide_div_mod_eq,
      Nat.mul_div_cancel _ hpos, decide_eq_decide] at hsame
    omega
  · rintro ⟨hbits, hagree⟩ n hlow hhigh
    rw [← hbits]
    refine Nat.eq_of_testBit_eq fun i => ?_
    rw [Nat.testBit_and, Nat.testBit_and]
    cases hi : m.testBit i with
    | false => simp
    | true =>
      have hfirst := Nat.div_le_div_right (c := 2 ^ i) hlow
      have hlast := Nat.div_le_div_right (c := 2 ^ i) hhigh
      have hn : n / 2 ^ i = a / 2 ^ i := by
        have heq := hagree i hi
        omega
      rw [Nat.testBit_eq_decide_div_mod_eq, Nat.testBit_eq_decide_div_mod_eq, hn]

/-- Two masks ask for the bits of one, if they do not contradict each other. -/
theorem and_eq_and_iff {m' c' : ℕ} (hc : c &&& m = c) (hc' : c' &&& m' = c') :
    n &&& m = c ∧ n &&& m' = c' ↔ c &&& m' = c' &&& m ∧ n &&& (m ||| m') = c ||| c' := by
  have hbits : ∀ {x y : ℕ}, x = y ↔ ∀ i, x.testBit i = y.testBit i :=
    ⟨fun h i => h ▸ rfl, Nat.eq_of_testBit_eq⟩
  simp only [hbits, Nat.testBit_and, Nat.testBit_or] at hc hc' ⊢
  rw [← forall_and, ← forall_and]
  refine forall_congr' fun i => ?_
  have hi := hc i
  have hi' := hc' i
  revert hi hi'
  cases n.testBit i <;> cases m.testBit i <;> cases m'.testBit i <;> cases c.testBit i <;>
    cases c'.testBit i <;> decide

end Numbers

/-- The number that some bytes write, the highest one first. -/
def number : List UInt8 → ℕ
  | [] => 0
  | byte :: l => 2 ^ (8 * l.length) * byte.toNat + number l

section Bytes

variable {l l' : List UInt8}

theorem number_lt (l : List UInt8) : number l < 2 ^ (8 * l.length) := by
  induction l with
  | nil => exact Nat.zero_lt_one
  | cons byte l ih =>
    have hbyte := Nat.mul_le_mul_left (2 ^ (8 * l.length)) (Nat.succ_le_of_lt byte.toNat_lt)
    rw [Nat.mul_succ] at hbyte
    rw [number, List.length_cons, Nat.mul_succ, Nat.pow_add]
    omega

/-- Numbers are compared byte by byte. -/
theorem number_lt_iff (h : l.length = l'.length) :
    number l < number l' ↔ l.map UInt8.toNat < l'.map UInt8.toNat := by
  induction l generalizing l' with
  | nil => cases List.length_eq_zero_iff.mp h.symm; simp
  | cons byte l ih =>
    cases l' with
    | nil => cases h
    | cons byte' l' =>
      have hlength : l.length = l'.length := Nat.succ.inj h
      rw [List.map_cons, List.map_cons, List.cons_lt_cons_iff, ← ih hlength, number, number,
        ← hlength]
      have hlt := number_lt l
      have hlt' := number_lt l'
      rw [← hlength] at hlt'
      generalize 2 ^ (8 * l.length) = base at *
      rcases lt_trichotomy byte.toNat byte'.toNat with hb | hb | hb
      · have hstep := Nat.mul_le_mul_left base (Nat.succ_le_of_lt hb)
        rw [Nat.mul_succ] at hstep
        exact iff_of_true (by omega) (.inl hb)
      · simp [hb]
      · have hstep := Nat.mul_le_mul_left base (Nat.succ_le_of_lt hb)
        rw [Nat.mul_succ] at hstep
        exact iff_of_false (by omega) (by omega)

theorem number_zipWith_and (h : l.length = l'.length) :
    number (List.zipWith (· &&& ·) l l') = number l &&& number l' := by
  induction l generalizing l' with
  | nil => simp [number]
  | cons byte l ih =>
    cases l' with
    | nil => cases h
    | cons byte' l' =>
      have hlength : l.length = l'.length := Nat.succ.inj h
      have hlt' := number_lt l'
      rw [← hlength] at hlt'
      rw [List.zipWith_cons_cons, number, number, number, ih hlength, List.length_zipWith, hlength,
        Nat.min_self, ← hlength, UInt8.toNat_and]
      refine Nat.eq_of_testBit_eq fun i => ?_
      rw [Nat.testBit_two_pow_mul_add _ (Nat.and_lt_two_pow _ hlt')]
      rw [Nat.testBit_and (2 ^ (8 * l.length) * byte.toNat + number l),
        Nat.testBit_two_pow_mul_add _ (number_lt l), Nat.testBit_two_pow_mul_add _ hlt',
        Nat.testBit_and, Nat.testBit_and]
      split_ifs <;> rfl

theorem exists_number (k : ℕ) {n : ℕ} (h : n < 2 ^ (8 * k)) :
    ∃ l : List UInt8, l.length = k ∧ number l = n := by
  induction k generalizing n with
  | zero => exact ⟨[], rfl, by rw [number]; omega⟩
  | succ k ih =>
    obtain ⟨l, hlength, hl⟩ := ih (Nat.mod_lt n (Nat.two_pow_pos (8 * k)))
    have hbyte : n / 2 ^ (8 * k) < 256 := by
      rw [Nat.div_lt_iff_lt_mul (Nat.two_pow_pos _)]
      rwa [Nat.mul_succ, Nat.pow_add, Nat.mul_comm] at h
    refine ⟨UInt8.ofNat (n / 2 ^ (8 * k)) :: l, by rw [List.length_cons, hlength], ?_⟩
    rw [number, hl, hlength, UInt8.toNat_ofNat', Nat.mod_eq_of_lt hbyte, Nat.div_add_mod]

end Bytes

end SnapCpp.MaskedRange

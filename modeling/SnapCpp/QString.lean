import Mathlib

/-!
Qt strings as sequences of 16 bit code units, compared unit by unit, with the
number formats and the splitting the daemons rely on to build and to read
their keys.
-/
namespace SnapCpp

abbrev QString := List UInt16

instance linearOrderUInt16 : LinearOrder UInt16 where
  le_refl := UInt16.le_refl
  le_trans := fun _ _ _ => UInt16.le_trans
  le_antisymm := fun _ _ => UInt16.le_antisymm
  le_total := UInt16.le_total
  lt_iff_le_not_ge := fun a b => by
    rw [UInt16.lt_iff_toNat_lt, UInt16.le_iff_toNat_le, UInt16.le_iff_toNat_le]
    omega
  toDecidableLE := inferInstance

instance lawfulBEqQString : LawfulBEq QString := inferInstance

namespace QString

def ascii (s : String) : QString := s.toList.map (fun c => c.toNat.toUInt16)

def slash : UInt16 := 47

def isDigit (c : UInt16) : Bool := 48 ≤ c && c ≤ 57

def decimal (n : ℕ) : QString := (Nat.toDigits 10 n).map (fun c => c.toNat.toUInt16)

def hexDigit (d : ℕ) : UInt16 := if d < 10 then (48 + d).toUInt16 else (87 + d).toUInt16

def hexDigits : ℕ → ℕ → QString
  | 0, _ => []
  | k + 1, n => hexDigit (n / 16 ^ k % 16) :: hexDigits k n

/-- `QString("%1").arg(n, 8, 16, QChar('0'))` of a 32 bit number. -/
def hex8 (n : UInt32) : QString := hexDigits 8 n.toNat

def hexValue (c : UInt16) : ℕ := if c ≤ 57 then c.toNat - 48 else c.toNat - 87

def readHex (s : QString) : ℕ := s.foldl (fun n c => n * 16 + hexValue c) 0

/-- `QString::split('/')`, empty segments included. -/
def splitSlash (s : QString) : List QString := s.splitOn slash

/-- `QString("%1/%2").arg(a).arg(b)` for arguments without a percent sign. -/
def joinSlash (a b : QString) : QString := a ++ slash :: b

theorem hexValue_hexDigit (d : ℕ) (h : d < 16) : hexValue (hexDigit d) = d := by
  interval_cases d <;> decide

theorem hexDigit_lt_hexDigit (d e : ℕ) (hd : d < 16) (he : e < 16) :
    hexDigit d < hexDigit e ↔ d < e := by
  have hall : ∀ d < 16, ∀ e < 16, (hexDigit d < hexDigit e ↔ d < e) := by decide
  exact hall d hd e he

theorem hexDigit_ne_slash (d : ℕ) (h : d < 16) : hexDigit d ≠ slash := by
  interval_cases d <;> decide

theorem slash_notMem_hexDigits (k n : ℕ) : slash ∉ hexDigits k n := by
  induction k with
  | zero => simp [hexDigits]
  | succ k ih =>
    have hdigit := hexDigit_ne_slash (n / 16 ^ k % 16) (Nat.mod_lt _ (by decide))
    simp only [hexDigits, List.mem_cons, not_or]
    exact ⟨Ne.symm hdigit, ih⟩

theorem slash_notMem_hex8 (n : UInt32) : slash ∉ hex8 n := slash_notMem_hexDigits 8 n.toNat

theorem mod_pow_succ (n k : ℕ) : n % 16 ^ (k + 1) = n / 16 ^ k % 16 * 16 ^ k + n % 16 ^ k := by
  rw [Nat.pow_succ, Nat.mod_mul, Nat.mul_comm, Nat.add_comm]

theorem foldl_hexDigits (k n acc : ℕ) :
    (hexDigits k n).foldl (fun m c => m * 16 + hexValue c) acc = acc * 16 ^ k + n % 16 ^ k := by
  induction k generalizing acc with
  | zero => simp [hexDigits, Nat.mod_one]
  | succ k ih =>
    rw [hexDigits, List.foldl_cons, ih, hexValue_hexDigit _ (Nat.mod_lt _ (by decide)),
      mod_pow_succ, Nat.pow_succ]
    ring

theorem readHex_hex8 (n : UInt32) : readHex (hex8 n) = n.toNat := by
  have hlt : n.toNat < 16 ^ 8 := n.toNat_lt
  rw [readHex, hex8, foldl_hexDigits, Nat.mod_eq_of_lt hlt]
  omega

theorem isDigit_iff {c : UInt16} : isDigit c = true ↔ 48 ≤ c.toNat ∧ c.toNat ≤ 57 := by
  rw [isDigit, Bool.and_eq_true, decide_eq_true_eq, decide_eq_true_eq, UInt16.le_iff_toNat_le,
    UInt16.le_iff_toNat_le]
  rfl

/-- A property of an ASCII character is tested on all of them. -/
theorem of_ascii {p : UInt16 → Prop} (hall : ∀ n < 128, p (.ofNat n)) {c : UInt16}
    (hc : c.toNat < 128) : p c := by
  have hp := hall c.toNat hc
  rwa [UInt16.ofNat_toNat] at hp

theorem isDigit_of_mem_decimal (n : ℕ) (c : UInt16) (h : c ∈ decimal n) :
    isDigit c = true := by
  obtain ⟨d, hd, rfl⟩ := List.mem_map.mp h
  have hdigit : d.isDigit = true := Nat.isDigit_of_mem_toDigits (by decide) (by decide) hd
  have hrange : 48 ≤ d.toNat ∧ d.toNat ≤ 57 := by
    simpa [Char.isDigit, UInt32.le_iff_toNat_le] using hdigit
  have hval : (d.toNat.toUInt16).toNat = d.toNat := by
    simp only [Nat.toUInt16, UInt16.toNat_ofNat']
    omega
  rwa [isDigit_iff, hval]

theorem slash_notMem_decimal (n : ℕ) : slash ∉ decimal n := by
  intro h
  have := isDigit_of_mem_decimal n slash h
  revert this
  decide

/-- Digits of equal width compare like the numbers they write, and what
follows them decides only between equal numbers. -/
theorem hexDigits_append_lt (k a b : ℕ) (x y : QString) :
    hexDigits k a ++ x < hexDigits k b ++ y ↔
      a % 16 ^ k < b % 16 ^ k ∨ a % 16 ^ k = b % 16 ^ k ∧ x < y := by
  induction k with
  | zero => simp [hexDigits, Nat.mod_one]
  | succ k ih =>
    have ha := Nat.mod_lt a (Nat.pow_pos (n := k) (show 0 < 16 by decide))
    have hb := Nat.mod_lt b (Nat.pow_pos (n := k) (show 0 < 16 by decide))
    have hda := Nat.mod_lt (a / 16 ^ k) (show 0 < 16 by decide)
    have hdb := Nat.mod_lt (b / 16 ^ k) (show 0 < 16 by decide)
    rw [mod_pow_succ a k, mod_pow_succ b k, hexDigits, hexDigits, List.cons_append,
      List.cons_append, List.cons_lt_cons_iff, ih, hexDigit_lt_hexDigit _ _ hda hdb]
    generalize a / 16 ^ k % 16 = d at *
    generalize b / 16 ^ k % 16 = e at *
    generalize a % 16 ^ k = m at *
    generalize b % 16 ^ k = n at *
    generalize 16 ^ k = w at *
    rcases Nat.lt_trichotomy d e with hde | hde | hde
    · have hlt : d * w + m < e * w + n := by nlinarith
      simp [hde, hlt]
    · subst hde
      simp
    · have hlt : e * w + n < d * w + m := by nlinarith
      have hne : hexDigit d ≠ hexDigit e := by
        intro heq
        have := hexValue_hexDigit d hda
        rw [heq, hexValue_hexDigit e hdb] at this
        omega
      constructor
      · rintro (h | ⟨h, _⟩)
        · omega
        · exact absurd h hne
      · rintro (h | ⟨h, _⟩) <;> omega

theorem hex8_append_lt (a b : UInt32) (x y : QString) :
    hex8 a ++ x < hex8 b ++ y ↔ a < b ∨ a = b ∧ x < y := by
  have ha : a.toNat < 16 ^ 8 := a.toNat_lt
  have hb : b.toNat < 16 ^ 8 := b.toNat_lt
  rw [hex8, hex8, hexDigits_append_lt, Nat.mod_eq_of_lt ha, Nat.mod_eq_of_lt hb,
    UInt32.lt_iff_toNat_lt, UInt32.toNat_inj]

/-- A key of two parts without a slash splits back into these parts. -/
theorem splitSlash_two (a b : QString) (ha : slash ∉ a) (hb : slash ∉ b) :
    splitSlash (joinSlash a b) = [a, b] := by
  rw [splitSlash, joinSlash, List.splitOn_append_cons_self_of_not_mem ha,
    List.splitOn_eq_singleton hb]

theorem splitSlash_three (a b c : QString) (ha : slash ∉ a) (hb : slash ∉ b)
    (hc : slash ∉ c) : splitSlash (joinSlash a (joinSlash b c)) = [a, b, c] := by
  rw [splitSlash, joinSlash, List.splitOn_append_cons_self_of_not_mem ha]
  exact congrArg (List.cons a) (splitSlash_two b c hb hc)

end QString
end SnapCpp

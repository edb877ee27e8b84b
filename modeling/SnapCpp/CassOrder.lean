import SnapCpp.CassInteger

/-!
The order of encoded integers. A setter of `cassvalue/encoder.h` leaves the big endian bytes of
its value in the buffer and nothing else. `memcmp()` orders such buffers as the numbers they
spell, which is the order of the values as long as none or both of them are negative.
-/
namespace SnapCpp.CassInteger

open CassValue

/-- `memcmp()` of two arrays of the same size. -/
def memcmp : Bytes → Bytes → Ordering
  | b :: s, c :: t => (compare b.toNat c.toNat).then (memcmp s t)
  | _, _ => .eq

/-- A leading digit decides the order of two numbers unless it is the same in both. -/
theorem compare_leading {base a b q r : ℤ} (hq : 0 ≤ q ∧ q < base) (hr : 0 ≤ r ∧ r < base) :
    compare (a * base + q) (b * base + r) = (compare a b).then (compare q r) := by
  rcases lt_trichotomy a b with hab | hab | hab
  · have hlt : a * base + q < b * base + r := by nlinarith
    rw [compare_lt_iff_lt.mpr hlt, compare_lt_iff_lt.mpr hab]
    rfl
  · rw [hab, compare_eq_iff_eq.mpr rfl, Ordering.then]
    rcases lt_trichotomy q r with hqr | hqr | hqr
    · rw [compare_lt_iff_lt.mpr hqr, compare_lt_iff_lt.mpr (by omega)]
    · rw [hqr, compare_eq_iff_eq.mpr rfl, compare_eq_iff_eq.mpr rfl]
    · rw [compare_gt_iff_gt.mpr hqr, compare_gt_iff_gt.mpr (by omega)]
  · have hgt : b * base + r < a * base + q := by nlinarith
    rw [compare_gt_iff_gt.mpr hgt, compare_gt_iff_gt.mpr hab]
    rfl

theorem memcmp_bigEndian (width : ℕ) (a b : ℤ) :
    memcmp (bigEndian width a) (bigEndian width b) =
      compare (a % 256 ^ width) (b % 256 ^ width) := by
  induction width with
  | zero => simp [bigEndian, memcmp]
  | succ width ih =>
    have hpos : (0 : ℤ) < 256 ^ width := by positivity
    have hdigit (x y : ℤ) : compare (byte x).toNat (byte y).toNat =
        compare (x % 256) (y % 256) := by
      rw [← toNat_byte, ← toNat_byte, ← cmp_eq_compare, ← cmp_eq_compare,
        Nat.strictMono_cast.cmp_map_eq]
    rw [bigEndian, bigEndian, memcmp, ih, hdigit, emod_pow_succ, emod_pow_succ,
      compare_leading ⟨Int.emod_nonneg _ hpos.ne', Int.emod_lt_of_pos _ hpos⟩
        ⟨Int.emod_nonneg _ hpos.ne', Int.emod_lt_of_pos _ hpos⟩]

section Setters

def Buffer.clear (_array : Buffer) : Buffer := ⟨[], by decide⟩

variable (array : Buffer)

def setCharValue (value : Int8) : Result Buffer := appendCharValue array.clear value

def setSignedCharValue (value : Int8) : Result Buffer := setCharValue array value

def setUnsignedCharValue (value : UInt8) : Result Buffer := setCharValue array value.toInt8

def setInt16Value (value : Int16) : Result Buffer := appendInt16Value array.clear value

def setUInt16Value (value : UInt16) : Result Buffer := setInt16Value array value.toInt16

def setInt32Value (value : Int32) : Result Buffer := appendInt32Value array.clear value

def setUInt32Value (value : UInt32) : Result Buffer := setInt32Value array value.toInt32

def setInt64Value (value : Int64) : Result Buffer := appendInt64Value array.clear value

def setUInt64Value (value : UInt64) : Result Buffer := setInt64Value array value.toInt64

namespace Kind

/-- `setXValue()`. -/
def set : (k : Kind) → k.Value → Result Buffer
  | char => setCharValue array
  | signedChar => setSignedCharValue array
  | unsignedChar => setUnsignedCharValue array
  | int16 => setInt16Value array
  | uint16 => setUInt16Value array
  | int32 => setInt32Value array
  | uint32 => setUInt32Value array
  | int64 => setInt64Value array
  | uint64 => setUInt64Value array

def toInt : (k : Kind) → k.Value → ℤ
  | char => Int8.toInt
  | signedChar => Int8.toInt
  | unsignedChar => fun v => (UInt8.toNat v : ℤ)
  | int16 => Int16.toInt
  | uint16 => fun v => (UInt16.toNat v : ℤ)
  | int32 => Int32.toInt
  | uint32 => fun v => (UInt32.toNat v : ℤ)
  | int64 => Int64.toInt
  | uint64 => fun v => (UInt64.toNat v : ℤ)

theorem set_eq (k : Kind) (v : k.Value) :
    ∃ small, k.set array v = .ok ⟨k.encode v, small⟩ := by
  have hset : k.set array v = k.append array.clear v := by cases k <;> rfl
  have hwidth : k.width ≤ bufferMaxSize := by cases k <;> decide
  have hlen : array.clear.data.length + (k.encode v).length ≤ bufferMaxSize := by
    rw [k.length_encode, Buffer.clear, List.length_nil, zero_add]
    exact hwidth
  rw [hset, k.append_eq, Buffer.append, dif_pos hlen]
  exact ⟨_, rfl⟩

end Kind

end Setters

/-- The bytes of a value are those of its number. -/
theorem Kind.encode_emod (k : Kind) (v : k.Value) :
    ∃ x, k.encode v = bigEndian k.width x ∧ x % 256 ^ k.width = k.toInt v % 256 ^ k.width := by
  cases k with
  | char | signedChar => exact ⟨_, rfl, rfl⟩
  | unsignedChar =>
    refine ⟨_, rfl, ?_⟩
    rw [show (UInt8.toInt8 v).toInt = (UInt8.toNat v : ℤ).bmod (2 ^ 8) from
      BitVec.toInt_eq_toNat_bmod _]
    exact Int.bmod_emod
  | int16 => exact ⟨_, rfl, rfl⟩
  | uint16 =>
    refine ⟨_, rfl, ?_⟩
    rw [show (UInt16.toInt16 v).toInt = (UInt16.toNat v : ℤ).bmod (2 ^ 16) from
      BitVec.toInt_eq_toNat_bmod _]
    exact Int.bmod_emod
  | int32 => exact ⟨_, rfl, rfl⟩
  | uint32 =>
    refine ⟨_, rfl, ?_⟩
    rw [show (UInt32.toInt32 v).toInt = (UInt32.toNat v : ℤ).bmod (2 ^ 32) from
      BitVec.toInt_eq_toNat_bmod _]
    exact Int.bmod_emod
  | int64 => exact ⟨_, rfl, rfl⟩
  | uint64 =>
    refine ⟨_, rfl, ?_⟩
    rw [show (UInt64.toInt64 v).toInt = (UInt64.toNat v : ℤ).bmod (2 ^ 64) from
      BitVec.toInt_eq_toNat_bmod _]
    exact Int.bmod_emod

def Kind.signed : Kind → Bool
  | char => true
  | signedChar => true
  | unsignedChar => false
  | int16 => true
  | uint16 => false
  | int32 => true
  | uint32 => false
  | int64 => true
  | uint64 => false

theorem Kind.toInt_signed {k : Kind} (hk : k.signed = true) (v : k.Value) :
    -256 ^ k.width ≤ 2 * k.toInt v ∧ 2 * k.toInt v < 256 ^ k.width := by
  cases k with
  | char | signedChar =>
    have hlt := Int8.toInt_lt v
    have hle := Int8.le_toInt v
    simp only [toInt, width]
    omega
  | int16 =>
    have hlt := Int16.toInt_lt v
    have hle := Int16.le_toInt v
    simp only [toInt, width]
    omega
  | int32 =>
    have hlt := Int32.toInt_lt v
    have hle := Int32.le_toInt v
    simp only [toInt, width]
    omega
  | int64 =>
    have hlt := Int64.toInt_lt v
    have hle := Int64.le_toInt v
    simp only [toInt, width]
    omega
  | unsignedChar | uint16 | uint32 | uint64 => cases hk

theorem Kind.toInt_unsigned {k : Kind} (hk : k.signed = false) (v : k.Value) :
    0 ≤ k.toInt v ∧ k.toInt v < 256 ^ k.width := by
  cases k with
  | unsignedChar =>
    have hlt := UInt8.toNat_lt v
    simp only [toInt, width]
    omega
  | uint16 =>
    have hlt := UInt16.toNat_lt v
    simp only [toInt, width]
    omega
  | uint32 =>
    have hlt := UInt32.toNat_lt v
    simp only [toInt, width]
    omega
  | uint64 =>
    have hlt := UInt64.toNat_lt v
    simp only [toInt, width]
    omega
  | char | signedChar | int16 | int32 | int64 => cases hk

theorem Kind.width_pos (k : Kind) : 0 < k.width := by
  cases k <;> decide

theorem Kind.toInt_eq_zero_iff (k : Kind) (v : k.Value) :
    k.toInt v = 0 ↔ k.toInt v % 256 ^ k.width = 0 := by
  have hpos : (0 : ℤ) < 256 ^ k.width := by positivity
  cases hk : k.signed with
  | true =>
    have hv := Kind.toInt_signed hk v
    refine ⟨fun h => by rw [h, Int.zero_emod], fun h => ?_⟩
    exact Int.eq_zero_of_abs_lt_dvd (Int.dvd_of_emod_eq_zero h) (abs_lt.mpr (by omega))
  | false =>
    have hv := Kind.toInt_unsigned hk v
    rw [Int.emod_eq_of_lt hv.1 hv.2]

theorem Kind.toInt_cast (k : Kind) (n : ℕ) :
    k.toInt (k.cast n) % 256 ^ k.width = n % 256 ^ k.width := by
  have hchar : ((UInt8.ofNat n).toInt8).toInt % 256 ^ 1 = n % 256 ^ 1 := by
    rw [show ((UInt8.ofNat n).toInt8).toInt = ((UInt8.ofNat n).toNat : ℤ).bmod (2 ^ 8) from
      BitVec.toInt_eq_toNat_bmod _, UInt8.toNat_ofNat']
    push_cast
    exact Int.bmod_emod.trans (Int.emod_emod_of_dvd _ (by norm_num))
  cases k with
  | char | signedChar => exact hchar
  | unsignedChar =>
    rw [show Kind.toInt .unsignedChar (Kind.cast .unsignedChar n) = ((UInt8.ofNat n).toNat : ℤ)
      from rfl, UInt8.toNat_ofNat']
    push_cast
    exact Int.emod_emod_of_dvd _ (by norm_num [width])
  | int16 =>
    rw [show Kind.toInt .int16 (Kind.cast .int16 n) = (Int16.ofInt n).toInt from rfl,
      Int16.toInt_ofInt]
    exact Int.bmod_emod
  | uint16 =>
    rw [show Kind.toInt .uint16 (Kind.cast .uint16 n) = ((UInt16.ofNat n).toNat : ℤ) from rfl,
      UInt16.toNat_ofNat']
    push_cast
    exact Int.emod_emod_of_dvd _ (by norm_num [width])
  | int32 =>
    rw [show Kind.toInt .int32 (Kind.cast .int32 n) = (Int32.ofInt n).toInt from rfl,
      Int32.toInt_ofInt]
    exact Int.bmod_emod
  | uint32 =>
    rw [show Kind.toInt .uint32 (Kind.cast .uint32 n) = ((UInt32.ofNat n).toNat : ℤ) from rfl,
      UInt32.toNat_ofNat']
    push_cast
    exact Int.emod_emod_of_dvd _ (by norm_num [width])
  | int64 =>
    rw [show Kind.toInt .int64 (Kind.cast .int64 n) = (Int64.ofInt n).toInt from rfl,
      Int64.toInt_ofInt]
    exact Int.bmod_emod
  | uint64 =>
    rw [show Kind.toInt .uint64 (Kind.cast .uint64 n) = ((UInt64.ofNat n).toNat : ℤ) from rfl,
      UInt64.toNat_ofNat']
    push_cast
    exact Int.emod_emod_of_dvd _ (by norm_num [width])

/-- An accessor at the front of a buffer returns the number that its first bytes spell. -/
theorem Kind.safeValue_front (k : Kind) {array : Buffer} {x : ℤ} {rest : Bytes}
    (h : array.data = bigEndian k.width x ++ rest) (d : k.Value) :
    ∃ v, k.safeValue array 0 d = .ok v ∧ k.toInt v % 256 ^ k.width = x % 256 ^ k.width := by
  have hsize := congrArg List.length h
  rw [List.length_append, length_bigEndian] at hsize
  have hinside : Inside array 0 k.width := ⟨le_refl 0, by
    rw [Buffer.size, hsize]
    change (0 : ℤ) + _ ≤ _
    omega⟩
  refine ⟨_, k.safeValue_inside d hinside, ?_⟩
  have hslice : slice array 0 k.width = bigEndian k.width x := by
    have htake : (bigEndian k.width x ++ rest).take (bigEndian k.width x).length =
        bigEndian k.width x := List.take_left
    rw [length_bigEndian] at htake
    rw [slice, h]
    exact htake
  rw [Kind.read, hslice, k.toInt_cast, number_bigEndian, Int.emod_emod]

/-- A negative number becomes one that is larger than the others. -/
theorem compare_emod_iff {a b m : ℤ} (ha : -m ≤ a ∧ a < m) (hb : -m ≤ b ∧ b < m)
    (hab : a - b < m ∧ b - a < m) :
    compare (a % m) (b % m) = compare a b ↔ (a < 0 ↔ b < 0) := by
  have hemod (x : ℤ) (hx : -m ≤ x ∧ x < m) : x % m = if x < 0 then x + m else x := by
    split_ifs with hneg
    · rw [← Int.add_emod_right, Int.emod_eq_of_lt (by omega) (by omega)]
    · exact Int.emod_eq_of_lt (by omega) hx.2
  rw [hemod a ha, hemod b hb]
  by_cases hna : a < 0
  · by_cases hnb : b < 0
    · simp only [hna, hnb, if_true, iff_self, iff_true]
      rcases lt_trichotomy a b with h | h | h
      · rw [compare_lt_iff_lt.mpr h, compare_lt_iff_lt.mpr (by omega)]
      · rw [h, compare_eq_iff_eq.mpr rfl, compare_eq_iff_eq.mpr rfl]
      · rw [compare_gt_iff_gt.mpr h, compare_gt_iff_gt.mpr (by omega)]
    · rw [if_pos hna, if_neg hnb, compare_lt_iff_lt.mpr (by omega : a < b),
        compare_gt_iff_gt.mpr (by omega)]
      simp [hna, hnb]
  · by_cases hnb : b < 0
    · rw [if_neg hna, if_pos hnb, compare_gt_iff_gt.mpr (by omega : b < a),
        compare_lt_iff_lt.mpr (by omega)]
      simp [hna, hnb]
    · simp [hna, hnb]

def SortsAs (array array' : Buffer) (k : Kind) (a b : k.Value) : Prop :=
  ∃ s t, k.set array a = .ok s ∧ k.set array' b = .ok t ∧
    memcmp s.data t.data = compare (k.toInt a) (k.toInt b)

theorem sortsAs_iff_memcmp (array array' : Buffer) (k : Kind) (a b : k.Value) :
    SortsAs array array' k a b ↔
      memcmp (k.encode a) (k.encode b) = compare (k.toInt a) (k.toInt b) := by
  obtain ⟨_, hseta⟩ := k.set_eq array a
  obtain ⟨_, hsetb⟩ := k.set_eq array' b
  constructor
  · rintro ⟨s, t, hs, ht, hst⟩
    rw [hseta] at hs
    rw [hsetb] at ht
    rwa [← Except.ok.inj hs, ← Except.ok.inj ht] at hst
  · intro h
    exact ⟨_, _, hseta, hsetb, h⟩

/-- The order of the buffers is that of the values unless one of them only is negative. -/
theorem sortsAs_iff (array array' : Buffer) (k : Kind) (a b : k.Value) :
    SortsAs array array' k a b ↔ (k.toInt a < 0 ↔ k.toInt b < 0) := by
  obtain ⟨x, hx, hxa⟩ := k.encode_emod a
  obtain ⟨y, hy, hyb⟩ := k.encode_emod b
  rw [sortsAs_iff_memcmp, hx, hy, memcmp_bigEndian, hxa, hyb]
  cases hk : k.signed with
  | true =>
    have ha := Kind.toInt_signed hk a
    have hb := Kind.toInt_signed hk b
    exact compare_emod_iff (by omega) (by omega) (by omega)
  | false =>
    have ha := Kind.toInt_unsigned hk a
    have hb := Kind.toInt_unsigned hk b
    exact compare_emod_iff (by omega) (by omega) (by omega)

/-- The buffer of -1 comes after the one of 1. -/
theorem negative_sorts_after :
    ¬ ∀ (array array' : Buffer) (k : Kind) (a b : k.Value), SortsAs array array' k a b := by
  intro h
  have hmemcmp := (sortsAs_iff_memcmp ⟨[], by decide⟩ ⟨[], by decide⟩ .int16 (-1 : Int16)
    (1 : Int16)).mp (h _ _ _ _ _)
  revert hmemcmp
  decide

end SnapCpp.CassInteger

import SnapCpp.CassValue
import SnapCpp.Ensures

/-!
The functions of `cassvalue/encoder.h` that append an integer to a `QByteArray` or decode one at an
index. There are three decoders of each type: one throws outside the buffer, one returns a default
at the end of it, and one returns a default instead of throwing. They compute the bounds in unsigned
arithmetic, and a byte may be read outside the buffer.
-/
namespace SnapCpp.CassInteger

open CassValue

/-- A `QByteArray`, whose size is an `int`. -/
structure Buffer where
  data : Bytes
  small : data.length < 2 ^ 31

theorem small_nil : ([] : Bytes).length < 2 ^ 31 := by decide

/-- An exception, or a read of `at()` outside the array, which is undefined. -/
inductive Failure
  | thrown (message : String)
  | outside
  deriving DecidableEq

abbrev Result (α : Type) := Except Failure α

namespace Buffer

def size (array : Buffer) : ℕ := array.data.length

/-- `QByteArray::append()` behind a `checkBufferSize()`. -/
def append (array : Buffer) (value : Bytes) : Result Buffer :=
  if h : array.data.length + value.length ≤ bufferMaxSize then
    .ok ⟨array.data ++ value, by
      rw [List.length_append]
      exact h.trans_lt (by decide)⟩
  else .error (.thrown "resulting value is more than 67108864 bytes")

/-- `QByteArray::at()`. -/
def byteAt (array : Buffer) (i : ℤ) : Result UInt8 :=
  if 0 ≤ i then
    match array.data[i.toNat]? with
    | some b => .ok b
    | none => .error .outside
  else .error .outside

def bytes (array : Buffer) : ℕ → ℤ → Result Bytes
  | 0, _ => .ok []
  | width + 1, i => do
      let b ← array.byteAt i
      let rest ← array.bytes width (i + 1)
      return b :: rest

end Buffer

section Families

variable {α : Type}

def byteValue (cast : UInt8 → α) (otherwise : Result α) (array : Buffer) (index : Int32) :
    Result α :=
  if (array.size : ℤ) ≤ uint index.toInt then otherwise
  else do
    let b ← array.byteAt index.toInt
    return cast b

def wideValue (width : ℕ) (cast : ℕ → α) (message : ℕ → String) (array : Buffer) (index : Int32) :
    Result α :=
  if array.size < uint index.toInt ∨ array.size < uint (index.toInt + width) then
    .error (.thrown (message array.size))
  else do
    let b ← array.bytes width index.toInt
    return cast (number b)

def wideValueOrNull (width : ℕ) (cast : ℕ → α) (message : String) (array : Buffer) (index : Int32)
    (defaultValue : α) : Result α :=
  if uint (index.toInt + width) ≤ array.size then do
    let b ← array.bytes width index.toInt
    return cast (number b)
  else if uint index.toInt ≤ array.size then .ok defaultValue
  else .error (.thrown message)

def safeWideValue (width : ℕ) (cast : ℕ → α) (array : Buffer) (index : Int32) (defaultValue : α) :
    Result α :=
  if uint (index.toInt + width) ≤ array.size then do
    let b ← array.bytes width index.toInt
    return cast (number b)
  else .ok defaultValue

end Families

section Functions

variable (array : Buffer) (index : Int32)

def appendCharValue (value : Int8) : Result Buffer := array.append (bigEndian 1 value.toInt)

def charValue : Result Int8 :=
  byteValue UInt8.toInt8 (.error (.thrown "buffer too small for this charValue")) array index

def charValueOrNull (defaultValue : Int8) : Result Int8 :=
  byteValue UInt8.toInt8 (.ok defaultValue) array index

def safeCharValue (defaultValue : Int8) : Result Int8 :=
  byteValue UInt8.toInt8 (.ok defaultValue) array index

def appendSignedCharValue (value : Int8) : Result Buffer := appendCharValue array value

def signedCharValue : Result Int8 :=
  byteValue UInt8.toInt8 (.error (.thrown "buffer too small for this signedCharValue")) array index

def signedCharValueOrNull (defaultValue : Int8) : Result Int8 :=
  byteValue UInt8.toInt8 (.ok defaultValue) array index

def safeSignedCharValue (defaultValue : Int8) : Result Int8 :=
  byteValue UInt8.toInt8 (.ok defaultValue) array index

def appendUnsignedCharValue (value : UInt8) : Result Buffer := appendCharValue array value.toInt8

def unsignedCharValue : Result UInt8 :=
  byteValue id (.error (.thrown "buffer too small for this unsignedCharValue")) array index

def unsignedCharValueOrNull (defaultValue : UInt8) : Result UInt8 :=
  byteValue id (.ok defaultValue) array index

def safeUnsignedCharValue (defaultValue : UInt8) : Result UInt8 :=
  byteValue id (.ok defaultValue) array index

def appendInt16Value (value : Int16) : Result Buffer := array.append (bigEndian 2 value.toInt)

def int16Value : Result Int16 :=
  wideValue 2 (fun n => Int16.ofInt n) (fun _ => "buffer too small for this int16Value") array index

def int16ValueOrNull (defaultValue : Int16) : Result Int16 :=
  wideValueOrNull 2 (fun n => Int16.ofInt n) "buffer too small for this int16ValueOrNull" array
    index defaultValue

def safeInt16Value (defaultValue : Int16) : Result Int16 :=
  safeWideValue 2 (fun n => Int16.ofInt n) array index defaultValue

def appendUInt16Value (value : UInt16) : Result Buffer := appendInt16Value array value.toInt16

def uint16Value : Result UInt16 :=
  wideValue 2 UInt16.ofNat (fun _ => "buffer too small for this uint16Value") array index

def uint16ValueOrNull (defaultValue : UInt16) : Result UInt16 :=
  wideValueOrNull 2 UInt16.ofNat "buffer too small for this uint16ValueOrNull" array index
    defaultValue

def safeUInt16Value (defaultValue : UInt16) : Result UInt16 :=
  safeWideValue 2 UInt16.ofNat array index defaultValue

def appendInt32Value (value : Int32) : Result Buffer := array.append (bigEndian 4 value.toInt)

def int32Value : Result Int32 :=
  wideValue 4 (fun n => Int32.ofInt n) (fun _ => "buffer too small for this int32Value") array index

def int32ValueOrNull (defaultValue : Int32) : Result Int32 :=
  wideValueOrNull 4 (fun n => Int32.ofInt n) "buffer too small for this int32ValueOrNull" array
    index defaultValue

def safeInt32Value (defaultValue : Int32) : Result Int32 :=
  safeWideValue 4 (fun n => Int32.ofInt n) array index defaultValue

def appendUInt32Value (value : UInt32) : Result Buffer := appendInt32Value array value.toInt32

def uint32Value : Result UInt32 :=
  wideValue 4 UInt32.ofNat (fun _ => "buffer too small for this uint32Value") array index

def uint32ValueOrNull (defaultValue : UInt32) : Result UInt32 :=
  wideValueOrNull 4 UInt32.ofNat "buffer too small for this uint32ValueOrNull" array index
    defaultValue

def safeUInt32Value (defaultValue : UInt32) : Result UInt32 :=
  safeWideValue 4 UInt32.ofNat array index defaultValue

def appendInt64Value (value : Int64) : Result Buffer := array.append (bigEndian 8 value.toInt)

def int64Value : Result Int64 :=
  wideValue 8 (fun n => Int64.ofInt n)
    (fun size => "buffer too small (" ++ toString size ++ ") for this int64Value") array index

def int64ValueOrNull (defaultValue : Int64) : Result Int64 :=
  wideValueOrNull 8 (fun n => Int64.ofInt n) "buffer too small for this int64ValueOrNull" array
    index defaultValue

def safeInt64Value (defaultValue : Int64) : Result Int64 :=
  safeWideValue 8 (fun n => Int64.ofInt n) array index defaultValue

def appendUInt64Value (value : UInt64) : Result Buffer := appendInt64Value array value.toInt64

def uint64Value : Result UInt64 :=
  wideValue 8 UInt64.ofNat (fun _ => "buffer too small for this uint64Value") array index

def uint64ValueOrNull (defaultValue : UInt64) : Result UInt64 :=
  wideValueOrNull 8 UInt64.ofNat "buffer too small for this uint64ValueOrNull" array index
    defaultValue

def safeUInt64Value (defaultValue : UInt64) : Result UInt64 :=
  safeWideValue 8 UInt64.ofNat array index defaultValue

end Functions

/-- The types of integers that have their functions. -/
inductive Kind
  | char
  | signedChar
  | unsignedChar
  | int16
  | uint16
  | int32
  | uint32
  | int64
  | uint64
  deriving DecidableEq, Repr

namespace Kind

def Value : Kind → Type
  | char => Int8
  | signedChar => Int8
  | unsignedChar => UInt8
  | int16 => Int16
  | uint16 => UInt16
  | int32 => Int32
  | uint32 => UInt32
  | int64 => Int64
  | uint64 => UInt64

def width : Kind → ℕ
  | char => 1
  | signedChar => 1
  | unsignedChar => 1
  | int16 => 2
  | uint16 => 2
  | int32 => 4
  | uint32 => 4
  | int64 => 8
  | uint64 => 8

/-- `appendXValue()`. -/
def append (array : Buffer) : (k : Kind) → k.Value → Result Buffer
  | char => appendCharValue array
  | signedChar => appendSignedCharValue array
  | unsignedChar => appendUnsignedCharValue array
  | int16 => appendInt16Value array
  | uint16 => appendUInt16Value array
  | int32 => appendInt32Value array
  | uint32 => appendUInt32Value array
  | int64 => appendInt64Value array
  | uint64 => appendUInt64Value array

/-- `xValue()`. -/
def value (array : Buffer) (index : Int32) : (k : Kind) → Result k.Value
  | char => charValue array index
  | signedChar => signedCharValue array index
  | unsignedChar => unsignedCharValue array index
  | int16 => int16Value array index
  | uint16 => uint16Value array index
  | int32 => int32Value array index
  | uint32 => uint32Value array index
  | int64 => int64Value array index
  | uint64 => uint64Value array index

/-- `xValueOrNull()`. -/
def valueOrNull (array : Buffer) (index : Int32) : (k : Kind) → k.Value → Result k.Value
  | char => charValueOrNull array index
  | signedChar => signedCharValueOrNull array index
  | unsignedChar => unsignedCharValueOrNull array index
  | int16 => int16ValueOrNull array index
  | uint16 => uint16ValueOrNull array index
  | int32 => int32ValueOrNull array index
  | uint32 => uint32ValueOrNull array index
  | int64 => int64ValueOrNull array index
  | uint64 => uint64ValueOrNull array index

/-- `safeXValue()`. -/
def safeValue (array : Buffer) (index : Int32) : (k : Kind) → k.Value → Result k.Value
  | char => safeCharValue array index
  | signedChar => safeSignedCharValue array index
  | unsignedChar => safeUnsignedCharValue array index
  | int16 => safeInt16Value array index
  | uint16 => safeUInt16Value array index
  | int32 => safeInt32Value array index
  | uint32 => safeUInt32Value array index
  | int64 => safeInt64Value array index
  | uint64 => safeUInt64Value array index

end Kind

/-- An integer that is appended. -/
structure Item where
  kind : Kind
  value : kind.Value

def appendAll (array : Buffer) (items : List Item) : Result Buffer :=
  items.foldlM (fun array item => item.kind.append array item.value) array

section Bounds

variable {array : Buffer} {index : Int32} {α : Type}

def Inside (array : Buffer) (index : Int32) (width : ℕ) : Prop :=
  0 ≤ index.toInt ∧ index.toInt + width ≤ array.size

def Wraps (array : Buffer) (index : Int32) (width : ℕ) : Prop :=
  2 ≤ width ∧ index.toInt < 0 ∧ 0 ≤ index.toInt + width ∧ index.toInt + width ≤ array.size

def slice (array : Buffer) (index : Int32) (width : ℕ) : Bytes :=
  (array.data.drop index.toInt.toNat).take width

theorem size_lt (array : Buffer) : (array.size : ℤ) < 2 ^ 31 := by
  have h := array.small
  rw [Buffer.size]
  omega

theorem byteAt_inside {i : ℕ} (h : i < array.data.length) :
    array.byteAt i = .ok array.data[i] := by
  rw [Buffer.byteAt, if_pos (Int.natCast_nonneg i), Int.toNat_natCast, List.getElem?_eq_getElem h]

theorem byteAt_negative {i : ℤ} (h : i < 0) : array.byteAt i = .error .outside := by
  rw [Buffer.byteAt, if_neg (by omega)]

theorem bytes_inside {width i : ℕ} (h : i + width ≤ array.data.length) :
    array.bytes width i = .ok ((array.data.drop i).take width) := by
  induction width generalizing i with
  | zero => rfl
  | succ width ih =>
    have hi : i < array.data.length := by omega
    have hrest := ih (i := i + 1) (by omega)
    rw [Nat.cast_add, Nat.cast_one] at hrest
    simp only [Buffer.bytes, byteAt_inside hi, hrest, bind, Except.bind, pure, Except.pure]
    rw [List.drop_eq_getElem_cons hi, List.take_succ_cons]

theorem bytes_negative {width : ℕ} {i : ℤ} (hwidth : 0 < width) (h : i < 0) :
    array.bytes width i = .error .outside := by
  obtain ⟨width, rfl⟩ : ∃ w, width = w + 1 := ⟨width - 1, by omega⟩
  simp only [Buffer.bytes, byteAt_negative h, bind, Except.bind]

theorem bytes_of_inside {width : ℕ} (h : Inside array index width) :
    array.bytes width index.toInt = .ok (slice array index width) := by
  obtain ⟨hpos, hend⟩ := h
  have hnat : (index.toInt.toNat : ℤ) = index.toInt := Int.toNat_of_nonneg hpos
  rw [← hnat, bytes_inside (by rw [Buffer.size] at hend; omega), slice]

theorem index_range (index : Int32) : -2 ^ 31 ≤ index.toInt ∧ index.toInt < 2 ^ 31 :=
  ⟨index.le_toInt, index.toInt_lt⟩

theorem byteValue_inside (cast : UInt8 → α) (otherwise : Result α) (h : Inside array index 1) :
    byteValue cast otherwise array index =
      .ok (cast (UInt8.ofNat (number (slice array index 1)))) := by
  obtain ⟨hpos, hend⟩ := id h
  have hrange := index_range index
  have hbytes := bytes_of_inside h
  have hnat : (index.toInt.toNat : ℤ) = index.toInt := Int.toNat_of_nonneg hpos
  have hi : index.toInt.toNat < array.data.length := by
    rw [Buffer.size] at hend
    omega
  have hin : ¬ (array.size : ℤ) ≤ uint index.toInt := by
    rw [uint]
    omega
  have hslice : slice array index 1 = [array.data[index.toInt.toNat]] := by
    rw [slice, List.drop_eq_getElem_cons hi, List.take_succ_cons, List.take_zero]
  have hbyte : array.byteAt index.toInt = .ok array.data[index.toInt.toNat] := by
    rw [← byteAt_inside hi, hnat]
  rw [byteValue, if_neg hin, hslice, hbyte]
  simp [number, bind, Except.bind, pure, Except.pure]

theorem byteValue_outside (cast : UInt8 → α) (otherwise : Result α) (h : ¬ Inside array index 1) :
    byteValue cast otherwise array index = otherwise := by
  have hrange := index_range index
  have hsize := size_lt array
  refine if_pos ?_
  rw [Inside] at h
  rw [uint]
  omega

variable (width : ℕ) (cast : ℕ → α)

theorem wideValue_inside (message : ℕ → String) (h : Inside array index width) :
    wideValue width cast message array index = .ok (cast (number (slice array index width))) := by
  obtain ⟨hpos, hend⟩ := id h
  have hrange := index_range index
  have hsize := size_lt array
  have hin : ¬ ((array.size : ℤ) < uint index.toInt ∨
      (array.size : ℤ) < uint (index.toInt + width)) := by
    rw [uint, uint]
    omega
  rw [wideValue, if_neg hin, bytes_of_inside h]
  rfl

theorem wideValue_outside (message : ℕ → String) (hwidth : width ≤ 8)
    (h : ¬ Inside array index width) :
    wideValue width cast message array index = .error (.thrown (message array.size)) := by
  have hrange := index_range index
  have hsize := size_lt array
  refine if_pos ?_
  rw [Inside] at h
  rw [uint, uint]
  omega

/-- The end of a value is in the buffer, in unsigned arithmetic. -/
theorem uint_end_le_iff (hwidth : width ≤ 8) (htwo : 2 ≤ width) :
    uint (index.toInt + width) ≤ array.size ↔
      Inside array index width ∨ Wraps array index width := by
  have hrange := index_range index
  have hsize := size_lt array
  rw [Inside, Wraps, uint]
  omega

theorem safeWideValue_inside (hwidth : width ≤ 8) (htwo : 2 ≤ width) (defaultValue : α)
    (h : Inside array index width) : safeWideValue width cast array index defaultValue =
      .ok (cast (number (slice array index width))) := by
  rw [safeWideValue, if_pos ((uint_end_le_iff width hwidth htwo).mpr (Or.inl h)), bytes_of_inside h]
  rfl

theorem safeWideValue_wraps (hwidth : width ≤ 8) (defaultValue : α)
    (h : Wraps array index width) :
    safeWideValue width cast array index defaultValue = .error .outside := by
  obtain ⟨htwo, hneg, _⟩ := id h
  rw [safeWideValue, if_pos ((uint_end_le_iff width hwidth htwo).mpr (Or.inr h)),
    bytes_negative (by omega) hneg]
  rfl

theorem safeWideValue_outside (hwidth : width ≤ 8) (htwo : 2 ≤ width) (defaultValue : α)
    (h : ¬ Inside array index width) (hwraps : ¬ Wraps array index width) :
    safeWideValue width cast array index defaultValue = .ok defaultValue :=
  if_neg fun hend => ((uint_end_le_iff width hwidth htwo).mp hend).elim h hwraps

theorem wideValueOrNull_inside (hwidth : width ≤ 8) (htwo : 2 ≤ width) (message : String)
    (defaultValue : α) (h : Inside array index width) :
    wideValueOrNull width cast message array index defaultValue =
      .ok (cast (number (slice array index width))) := by
  have hend := (uint_end_le_iff width hwidth htwo).mpr (Or.inl h)
  rw [wideValueOrNull, if_pos hend, bytes_of_inside h]
  rfl

theorem wideValueOrNull_outside (hwidth : width ≤ 8) (htwo : 2 ≤ width) (message : String)
    (defaultValue : α) (h : ¬ Inside array index width) (hwraps : ¬ Wraps array index width) :
    wideValueOrNull width cast message array index defaultValue ≠ .error .outside := by
  have hend := fun hle => ((uint_end_le_iff width hwidth htwo).mp hle).elim h hwraps
  rw [wideValueOrNull, if_neg hend]
  split_ifs
  · exact fun heq => by cases heq
  · exact fun heq => by cases heq

end Bounds

namespace Kind

variable {array : Buffer} {index : Int32}

def cast : (k : Kind) → ℕ → k.Value
  | char => fun n => (UInt8.ofNat n).toInt8
  | signedChar => fun n => (UInt8.ofNat n).toInt8
  | unsignedChar => UInt8.ofNat
  | int16 => fun n => Int16.ofInt n
  | uint16 => UInt16.ofNat
  | int32 => fun n => Int32.ofInt n
  | uint32 => UInt32.ofNat
  | int64 => fun n => Int64.ofInt n
  | uint64 => UInt64.ofNat

def read (array : Buffer) (index : Int32) (k : Kind) : k.Value :=
  k.cast (number (slice array index k.width))

theorem value_inside (k : Kind) (h : Inside array index k.width) :
    k.value array index = .ok (k.read array index) := by
  cases k with
  | char | signedChar | unsignedChar => exact byteValue_inside _ _ h
  | int16 =>
    rw [value, int16Value, wideValue_inside 2 _ _ h]
    rfl
  | uint16 =>
    rw [value, uint16Value, wideValue_inside 2 _ _ h]
    rfl
  | int32 =>
    rw [value, int32Value, wideValue_inside 4 _ _ h]
    rfl
  | uint32 =>
    rw [value, uint32Value, wideValue_inside 4 _ _ h]
    rfl
  | int64 =>
    rw [value, int64Value, wideValue_inside 8 _ _ h]
    rfl
  | uint64 =>
    rw [value, uint64Value, wideValue_inside 8 _ _ h]
    rfl

theorem value_outside (k : Kind) (h : ¬ Inside array index k.width) :
    ∃ message, k.value array index = .error (.thrown message) := by
  cases k with
  | char | signedChar | unsignedChar => exact ⟨_, byteValue_outside _ _ h⟩
  | int16 =>
    rw [value, int16Value, wideValue_outside 2 _ _ (by decide) h]
    exact ⟨_, rfl⟩
  | uint16 =>
    rw [value, uint16Value, wideValue_outside 2 _ _ (by decide) h]
    exact ⟨_, rfl⟩
  | int32 =>
    rw [value, int32Value, wideValue_outside 4 _ _ (by decide) h]
    exact ⟨_, rfl⟩
  | uint32 =>
    rw [value, uint32Value, wideValue_outside 4 _ _ (by decide) h]
    exact ⟨_, rfl⟩
  | int64 =>
    rw [value, int64Value, wideValue_outside 8 _ _ (by decide) h]
    exact ⟨_, rfl⟩
  | uint64 =>
    rw [value, uint64Value, wideValue_outside 8 _ _ (by decide) h]
    exact ⟨_, rfl⟩

theorem valueOrNull_inside (k : Kind) (d : k.Value) (h : Inside array index k.width) :
    k.valueOrNull array index d = .ok (k.read array index) := by
  cases k with
  | char | signedChar | unsignedChar => exact byteValue_inside _ _ h
  | int16 => exact wideValueOrNull_inside 2 (cast .int16) (by decide) (by decide) _ d h
  | uint16 => exact wideValueOrNull_inside 2 (cast .uint16) (by decide) (by decide) _ d h
  | int32 => exact wideValueOrNull_inside 4 (cast .int32) (by decide) (by decide) _ d h
  | uint32 => exact wideValueOrNull_inside 4 (cast .uint32) (by decide) (by decide) _ d h
  | int64 => exact wideValueOrNull_inside 8 (cast .int64) (by decide) (by decide) _ d h
  | uint64 => exact wideValueOrNull_inside 8 (cast .uint64) (by decide) (by decide) _ d h

theorem valueOrNull_outside (k : Kind) (d : k.Value) (h : ¬ Inside array index k.width)
    (hwraps : ¬ Wraps array index k.width) : k.valueOrNull array index d ≠ .error .outside := by
  have hbyte : ∀ (cast : UInt8 → k.Value), ¬ Inside array index 1 →
      byteValue cast (.ok d) array index ≠ .error .outside := by
    intro cast hout heq
    rw [byteValue_outside cast _ hout] at heq
    cases heq
  cases k with
  | char | signedChar | unsignedChar => exact hbyte _ h
  | int16 => exact wideValueOrNull_outside 2 (cast .int16) (by decide) (by decide) _ d h hwraps
  | uint16 => exact wideValueOrNull_outside 2 (cast .uint16) (by decide) (by decide) _ d h hwraps
  | int32 => exact wideValueOrNull_outside 4 (cast .int32) (by decide) (by decide) _ d h hwraps
  | uint32 => exact wideValueOrNull_outside 4 (cast .uint32) (by decide) (by decide) _ d h hwraps
  | int64 => exact wideValueOrNull_outside 8 (cast .int64) (by decide) (by decide) _ d h hwraps
  | uint64 => exact wideValueOrNull_outside 8 (cast .uint64) (by decide) (by decide) _ d h hwraps

theorem safeValue_inside (k : Kind) (d : k.Value) (h : Inside array index k.width) :
    k.safeValue array index d = .ok (k.read array index) := by
  cases k with
  | char | signedChar | unsignedChar => exact byteValue_inside _ _ h
  | int16 => exact safeWideValue_inside 2 (cast .int16) (by decide) (by decide) d h
  | uint16 => exact safeWideValue_inside 2 (cast .uint16) (by decide) (by decide) d h
  | int32 => exact safeWideValue_inside 4 (cast .int32) (by decide) (by decide) d h
  | uint32 => exact safeWideValue_inside 4 (cast .uint32) (by decide) (by decide) d h
  | int64 => exact safeWideValue_inside 8 (cast .int64) (by decide) (by decide) d h
  | uint64 => exact safeWideValue_inside 8 (cast .uint64) (by decide) (by decide) d h

theorem safeValue_outside (k : Kind) (d : k.Value) (h : ¬ Inside array index k.width)
    (hwraps : ¬ Wraps array index k.width) : k.safeValue array index d = .ok d := by
  cases k with
  | char | signedChar | unsignedChar => exact byteValue_outside _ _ h
  | int16 => exact safeWideValue_outside 2 (cast .int16) (by decide) (by decide) d h hwraps
  | uint16 => exact safeWideValue_outside 2 (cast .uint16) (by decide) (by decide) d h hwraps
  | int32 => exact safeWideValue_outside 4 (cast .int32) (by decide) (by decide) d h hwraps
  | uint32 => exact safeWideValue_outside 4 (cast .uint32) (by decide) (by decide) d h hwraps
  | int64 => exact safeWideValue_outside 8 (cast .int64) (by decide) (by decide) d h hwraps
  | uint64 => exact safeWideValue_outside 8 (cast .uint64) (by decide) (by decide) d h hwraps

theorem safeValue_wraps (k : Kind) (d : k.Value) (hwraps : Wraps array index k.width) :
    k.safeValue array index d = .error .outside := by
  have htwo := hwraps.1
  cases k with
  | char | signedChar | unsignedChar => exact absurd htwo (by decide)
  | int16 => exact safeWideValue_wraps 2 (cast .int16) (by decide) d hwraps
  | uint16 => exact safeWideValue_wraps 2 (cast .uint16) (by decide) d hwraps
  | int32 => exact safeWideValue_wraps 4 (cast .int32) (by decide) d hwraps
  | uint32 => exact safeWideValue_wraps 4 (cast .uint32) (by decide) d hwraps
  | int64 => exact safeWideValue_wraps 8 (cast .int64) (by decide) d hwraps
  | uint64 => exact safeWideValue_wraps 8 (cast .uint64) (by decide) d hwraps

end Kind

structure Bounded (k : Kind) (array : Buffer) (index : Int32) : Prop where
  value : k.value array index ≠ .error .outside
  valueOrNull : ∀ d, k.valueOrNull array index d ≠ .error .outside
  safeValue : ∀ d, k.safeValue array index d ≠ .error .outside
  throws : (∃ message, k.value array index = .error (.thrown message)) ↔
    ¬ Inside array index k.width
  default : ¬ Inside array index k.width → ∀ d, k.safeValue array index d = .ok d

instance (k : Kind) : Inhabited k.Value := ⟨k.cast 0⟩

theorem bounded_iff (k : Kind) (array : Buffer) (index : Int32) :
    Bounded k array index ↔ ¬ Wraps array index k.width := by
  constructor
  · intro h hwraps
    exact h.safeValue default (k.safeValue_wraps default hwraps)
  · intro hwraps
    by_cases h : Inside array index k.width
    · have hvalue := k.value_inside h
      refine ⟨?_, fun d => ?_, fun d => ?_, ⟨?_, fun hout => absurd h hout⟩,
        fun hout => absurd h hout⟩
      · rw [hvalue]
        exact fun heq => by cases heq
      · rw [k.valueOrNull_inside d h]
        exact fun heq => by cases heq
      · rw [k.safeValue_inside d h]
        exact fun heq => by cases heq
      · rintro ⟨message, hthrown⟩
        rw [hvalue] at hthrown
        cases hthrown
    · obtain ⟨message, hvalue⟩ := k.value_outside h
      refine ⟨?_, fun d => k.valueOrNull_outside d h hwraps, fun d => ?_,
        ⟨fun _ => h, fun _ => ⟨message, hvalue⟩⟩, fun _ d => k.safeValue_outside d h hwraps⟩
      · rw [hvalue]
        exact fun heq => by cases heq
      · rw [k.safeValue_outside d h hwraps]
        exact fun heq => by cases heq

def Kind.encode : (k : Kind) → k.Value → Bytes
  | .char => fun v => bigEndian 1 (Int8.toInt v)
  | .signedChar => fun v => bigEndian 1 (Int8.toInt v)
  | .unsignedChar => fun v => bigEndian 1 (UInt8.toInt8 v).toInt
  | .int16 => fun v => bigEndian 2 (Int16.toInt v)
  | .uint16 => fun v => bigEndian 2 (UInt16.toInt16 v).toInt
  | .int32 => fun v => bigEndian 4 (Int32.toInt v)
  | .uint32 => fun v => bigEndian 4 (UInt32.toInt32 v).toInt
  | .int64 => fun v => bigEndian 8 (Int64.toInt v)
  | .uint64 => fun v => bigEndian 8 (UInt64.toInt64 v).toInt

theorem Kind.append_eq (k : Kind) (array : Buffer) (v : k.Value) :
    k.append array v = array.append (k.encode v) := by
  cases k <;> rfl

theorem Kind.length_encode (k : Kind) (v : k.Value) : (k.encode v).length = k.width := by
  cases k <;> exact length_bigEndian _ _

theorem number_unsigned {width n : ℕ} {value : ℤ} (hvalue : value = (n : ℤ).bmod (256 ^ width))
    (hn : n < 256 ^ width) : number (bigEndian width value) = n := by
  have h := number_bigEndian width value
  have hmod : (n : ℤ) % 256 ^ width = n := Int.emod_eq_of_lt (by omega) (by exact_mod_cast hn)
  have hbmod := Int.bmod_emod (x := (n : ℤ)) (m := 256 ^ width)
  push_cast at hbmod
  rw [hmod, ← hvalue] at hbmod
  rw [hbmod] at h
  exact_mod_cast h

theorem Kind.cast_encode (k : Kind) (v : k.Value) : k.cast (number (k.encode v)) = v := by
  have hsigned : ∀ v : Int8, (UInt8.ofNat (number (bigEndian 1 v.toInt))).toInt8 = v := by
    intro v
    rw [number_unsigned (n := v.toUInt8.toNat) (BitVec.toInt_eq_toNat_bmod _) v.toUInt8.toNat_lt,
      UInt8.ofNat_toNat]
    rfl
  cases k with
  | char => exact hsigned v
  | signedChar => exact hsigned v
  | unsignedChar =>
    change UInt8.ofNat (number (bigEndian 1 (UInt8.toInt8 v).toInt)) = v
    rw [number_unsigned (BitVec.toInt_eq_toNat_bmod _) (UInt8.toNat_lt v)]
    exact UInt8.ofNat_toNat
  | int16 =>
    change Int16.ofInt (number (bigEndian 2 (Int16.toInt v))) = v
    rw [number_bigEndian, (Int16.ofInt_eq_iff_bmod_eq_toInt _ v).mpr]
    exact (Int.emod_bmod _ _).trans (Int16.toInt_bmod v)
  | uint16 =>
    change UInt16.ofNat (number (bigEndian 2 (UInt16.toInt16 v).toInt)) = v
    rw [number_unsigned (BitVec.toInt_eq_toNat_bmod _) (UInt16.toNat_lt v)]
    exact UInt16.ofNat_toNat
  | int32 =>
    change Int32.ofInt (number (bigEndian 4 (Int32.toInt v))) = v
    rw [number_bigEndian, (Int32.ofInt_eq_iff_bmod_eq_toInt _ v).mpr]
    exact (Int.emod_bmod _ _).trans (Int32.toInt_bmod v)
  | uint32 =>
    change UInt32.ofNat (number (bigEndian 4 (UInt32.toInt32 v).toInt)) = v
    rw [number_unsigned (BitVec.toInt_eq_toNat_bmod _) (UInt32.toNat_lt v)]
    exact UInt32.ofNat_toNat
  | int64 =>
    change Int64.ofInt (number (bigEndian 8 (Int64.toInt v))) = v
    rw [number_bigEndian, (Int64.ofInt_eq_iff_bmod_eq_toInt _ v).mpr]
    exact (Int.emod_bmod _ _).trans (Int64.toInt_bmod v)
  | uint64 =>
    change UInt64.ofNat (number (bigEndian 8 (UInt64.toInt64 v).toInt)) = v
    rw [number_unsigned (BitVec.toInt_eq_toNat_bmod _) (UInt64.toNat_lt v)]
    exact UInt64.ofNat_toNat

variable {array : Buffer}

theorem append_ok {final : Buffer} {value : Bytes} (h : array.append value = .ok final) :
    final.data = array.data ++ value := by
  rw [Buffer.append] at h
  split_ifs at h
  rw [← Except.ok.inj h]

theorem appendAll_cons (array : Buffer) (item : Item) (items : List Item) :
    appendAll array (item :: items) =
      (item.kind.append array item.value >>= fun next => appendAll next items) := rfl

/-- What is appended later stands behind what is there. -/
theorem appendAll_ok {final : Buffer} {items : List Item}
    (h : appendAll array items = .ok final) :
    final.data = array.data ++ items.flatMap fun item => item.kind.encode item.value := by
  induction items generalizing array with
  | nil =>
    obtain rfl := Except.ok.inj h
    simp
  | cons item items ih =>
    rw [appendAll_cons, item.kind.append_eq] at h
    obtain ⟨next, happend, h⟩ := bind_eq_ok h
    rw [ih h, append_ok happend, List.flatMap_cons, List.append_assoc]

theorem appendAll_append (array : Buffer) (items items' : List Item) :
    appendAll array (items ++ items') =
      (appendAll array items >>= fun next => appendAll next items') :=
  List.foldlM_append

/-- The decoders of a type return a value. -/
structure Decodes (k : Kind) (array : Buffer) (index : Int32) (v : k.Value) : Prop where
  value : k.value array index = .ok v
  valueOrNull : ∀ d, k.valueOrNull array index d = .ok v
  safeValue : ∀ d, k.safeValue array index d = .ok v

theorem decodes_encoded {k : Kind} {v : k.Value} {index : Int32}
    {front rest : Bytes} (harray : array.data = front ++ (k.encode v ++ rest))
    (hindex : index.toInt = front.length) : Decodes k array index v := by
  have hsize := congrArg List.length harray
  simp only [List.length_append, k.length_encode] at hsize
  have hinside : Inside array index k.width := by
    rw [Inside, Buffer.size]
    omega
  have hread : k.read array index = v := by
    have hslice : slice array index k.width = k.encode v := by
      rw [slice, harray, hindex, Int.toNat_natCast, List.drop_left, ← k.length_encode v,
        List.take_left]
    rw [Kind.read, hslice, k.cast_encode]
  refine ⟨?_, fun d => ?_, fun d => ?_⟩
  · rw [k.value_inside hinside, hread]
  · rw [k.valueOrNull_inside d hinside, hread]
  · rw [k.safeValue_inside d hinside, hread]

def RoundTrip (start : Buffer) (items : List Item) : Prop :=
  ∀ final, appendAll start items = .ok final → ∀ front item rest, items = front ++ item :: rest →
    ∃ mid, appendAll start front = .ok mid ∧
      ∀ index : Int32, index.toInt = mid.size → Decodes item.kind final index item.value

theorem roundTrip (start : Buffer) (items : List Item) : RoundTrip start items := by
  intro final hfinal front item rest hitems
  have hall := appendAll_ok hfinal
  rw [hitems, appendAll_append] at hfinal
  cases hmid : appendAll start front with
  | error e =>
    rw [hmid] at hfinal
    cases hfinal
  | ok mid =>
    have harray : final.data = mid.data ++ (item.kind.encode item.value ++
        rest.flatMap fun item => item.kind.encode item.value) := by
      rw [hall, hitems, appendAll_ok hmid, List.flatMap_append, List.flatMap_cons,
        List.append_assoc]
    exact ⟨mid, rfl, fun index hindex => decodes_encoded harray hindex⟩

/-- The codec returns what was appended, and its decoders stay in the buffer exactly where no value
of several bytes starts before the buffer and ends in it. -/
theorem codec_iff (start : Buffer) (items : List Item) (k : Kind) (array : Buffer)
    (index : Int32) :
    RoundTrip start items ∧ Bounded k array index ↔ ¬ Wraps array index k.width := by
  rw [bounded_iff]
  exact and_iff_right (roundTrip start items)

/-- The last byte of a buffer is decoded with a byte before it. -/
theorem safeInt16Value_outside :
    ¬ ∀ k array index, Bounded k array index := by
  intro h
  have hsafe := (h .int16 ⟨[7], by decide⟩ (-1)).safeValue (0 : Int16)
  exact hsafe (by rfl)

end SnapCpp.CassInteger

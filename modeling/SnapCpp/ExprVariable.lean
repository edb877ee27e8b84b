import SnapCpp.CassOrder
import SnapCpp.Ensures
import SnapCpp.ExprExecute

/-!
The variables of snap_expr. A `variable_t` holds the bytes of a value and its type, and whatever
needs the value picks an accessor of `cassvalue` by the type. Three of these switches decide whether
a value is true: `is_true()`, the operator `!` and the conditional operator. They agree on a value
unless only the low half of a 64 bit integer says that it is not zero, or a string is nothing but a
byte order mark.
-/
namespace SnapCpp.Expr

open CassValue CassInteger

/-- `variable_type_t`. -/
inductive VariableType where
  | null | bool | int8 | uint8 | int16 | uint16 | int32 | uint32 | int64 | uint64 | float | double
  | string | binary
deriving DecidableEq

def VariableType.number : VariableType → ℕ
  | null => 0
  | bool => 1
  | int8 => 2
  | uint8 => 3
  | int16 => 4
  | uint16 => 5
  | int32 => 6
  | uint32 => 7
  | int64 => 8
  | uint64 => 9
  | float => 10
  | double => 11
  | string => 12
  | binary => 13

/-- The exceptions, and what C++ does not define. -/
inductive Failure where
  | cassvalue (failure : CassInteger.Failure)
  | logic (message : QString)
  | divisionByZero (message : QString)
  | undefined

/-- `variable_t`. -/
structure Variable where
  fName : QString := []
  fType : VariableType := .null
  fValue : Buffer := ⟨[], small_nil⟩

section Cassvalue

variable (array : Buffer)

def setBoolValue (value : Bool) : Result Buffer := array.clear.append [if value then 1 else 0]

def boolValueOrNull (index : Int32) (defaultValue : Bool) : Result Bool :=
  byteValue (fun b => b != 0) (.ok defaultValue) array index

def setStringValue (value : QString) : Result Buffer := array.clear.append (Utf.toUtf8 value)

/-- `stringValue()` of a whole buffer. -/
def stringValue : QString := Utf.fromUtf8 array.data

def setBinaryValue (value : Buffer) : Result Buffer := array.clear.append value.data

def nullValue : Bool := array.size == 0

end Cassvalue

/-- The values that `set_value()` is overloaded for, the floating points aside. -/
inductive Scalar where
  | bool (value : Bool)
  | integer (k : Kind) (value : k.Value)
  | string (value : QString)
  | binary (value : Buffer)

/-- A `char` is taken for an unsigned one. -/
def integerType : Kind → VariableType
  | .char => .uint8
  | .signedChar => .int8
  | .unsignedChar => .uint8
  | .int16 => .int16
  | .uint16 => .uint16
  | .int32 => .int32
  | .uint32 => .uint32
  | .int64 => .int64
  | .uint64 => .uint64

def Variable.setValue (x : Variable) : Scalar → Result Variable
  | .bool value => do return { x with fType := .bool, fValue := ← setBoolValue x.fValue value }
  | .integer k value => do
      return { x with fType := integerType k, fValue := ← k.set x.fValue value }
  | .string value =>
    do return { x with fType := .string, fValue := ← setStringValue x.fValue value }
  | .binary value =>
    do return { x with fType := .binary, fValue := ← setBinaryValue x.fValue value }

/-- `safeXValue() != 0`. -/
def nonzero (k : Kind) (array : Buffer) : Except Failure Bool := do
  let v ← (k.safeValue array 0 (k.cast 0)).mapError .cassvalue
  return k.toInt v != 0

/-- `safeFloatValue() != 0.0f`, by the bits other than the sign. -/
def nonzeroFloat (array : Buffer) : Except Failure Bool := do
  let v ← (safeUInt32Value array 0 0).mapError .cassvalue
  return v.toNat % 2 ^ 31 != 0

/-- `safeDoubleValue() != 0.0`, by the bits other than the sign. -/
def nonzeroDouble (array : Buffer) : Except Failure Bool := do
  let v ← (safeUInt64Value array 0 0).mapError .cassvalue
  return v.toNat % 2 ^ 63 != 0

def Variable.isTrue (x : Variable) : Except Failure Bool :=
  match x.fType with
  | .null => .ok false
  | .bool => (boolValueOrNull x.fValue 0 false).mapError .cassvalue
  | .int8 | .uint8 => nonzero .signedChar x.fValue
  | .int16 | .uint16 => nonzero .int16 x.fValue
  | .int32 | .uint32 => nonzero .int32 x.fValue
  | .int64 | .uint64 => nonzero .int32 x.fValue
  | .float => nonzeroFloat x.fValue
  | .double => nonzeroDouble x.fValue
  | .string | .binary => .ok !nullValue x.fValue

/-- The exception of `logical_not()`, and of `conditional()`. -/
def incompatible (type : VariableType) : Failure :=
  .logic (ascii "expr_node::logical_not() called with an incompatible sub_result type: " ++
    QString.decimal type.number)

/-- The switch of `conditional()` on the result of its first child. -/
def conditionalTest (result : Variable) : Except Failure Bool :=
  match result.fType with
  | .bool => nonzero .signedChar result.fValue
  | .int8 => nonzero .signedChar result.fValue
  | .uint8 => nonzero .unsignedChar result.fValue
  | .int16 => nonzero .int16 result.fValue
  | .uint16 => nonzero .uint16 result.fValue
  | .int32 => nonzero .int32 result.fValue
  | .uint32 => nonzero .uint32 result.fValue
  | .int64 => nonzero .int64 result.fValue
  | .uint64 => nonzero .uint64 result.fValue
  | .float => nonzeroFloat result.fValue
  | .double => nonzeroDouble result.fValue
  | .string => .ok ((stringValue result.fValue).length != 0)
  | .binary => .ok (result.fValue.size != 0)
  | .null => .error (incompatible .null)

/-- The switch of `logical_not()`. -/
def isZero (x : Variable) : Except Failure Bool :=
  match x.fType with
  | .bool => do return !(← (boolValueOrNull x.fValue 0 false).mapError .cassvalue)
  | .int8 => do return !(← nonzero .signedChar x.fValue)
  | .uint8 => do return !(← nonzero .unsignedChar x.fValue)
  | .int16 => do return !(← nonzero .int16 x.fValue)
  | .uint16 => do return !(← nonzero .uint16 x.fValue)
  | .int32 => do return !(← nonzero .int32 x.fValue)
  | .uint32 => do return !(← nonzero .uint32 x.fValue)
  | .int64 => do return !(← nonzero .int64 x.fValue)
  | .uint64 => do return !(← nonzero .uint64 x.fValue)
  | .float => do return !(← nonzeroFloat x.fValue)
  | .double => do return !(← nonzeroDouble x.fValue)
  | .string => .ok ((stringValue x.fValue).length == 0)
  | .binary => .ok (x.fValue.size == 0)
  | .null => .error (incompatible .null)

/-- `logical_not()` of one result. -/
def logicalNot (result x : Variable) : Except Failure Variable := do
  let value ← (setBoolValue ⟨[], small_nil⟩ (← isZero x)).mapError .cassvalue
  return { result with fType := .bool, fValue := value }

section Reading

variable {x x' : Variable} {array : Buffer}

theorem nonzero_front (k : Kind) {y : ℤ} {rest : Bytes}
    (h : array.data = bigEndian k.width y ++ rest) :
    nonzero k array = .ok (y % 256 ^ k.width != 0) := by
  obtain ⟨v, hv, hmod⟩ := k.safeValue_front h (k.cast 0)
  have hzero : (k.toInt v != 0) = (y % 256 ^ k.width != 0) := by
    rw [← hmod, Bool.eq_iff_iff, bne_iff_ne, bne_iff_ne]
    exact not_congr (k.toInt_eq_zero_iff v)
  rw [nonzero, hv, ← hzero]
  rfl

theorem nonzero_encode (k k' : Kind) (v : k.Value) (hwidth : k'.width = k.width)
    (h : array.data = k.encode v) : nonzero k' array = .ok (k.toInt v != 0) := by
  obtain ⟨y, hy, hmod⟩ := k.encode_emod v
  have hdata : array.data = bigEndian k'.width y ++ [] := by rw [h, hy, hwidth, List.append_nil]
  rw [nonzero_front k' hdata, hwidth, hmod]
  congr 1
  rw [Bool.eq_iff_iff, bne_iff_ne, bne_iff_ne]
  exact not_congr (k.toInt_eq_zero_iff v).symm

theorem nonzero_high (k : Kind) (v : k.Value) (hwidth : k.width = 8)
    (h : array.data = k.encode v) :
    nonzero .int32 array = .ok (k.toInt v / 2 ^ 32 % 2 ^ 32 != 0) := by
  obtain ⟨y, hy, hmod⟩ := k.encode_emod v
  rw [hwidth] at hy hmod
  have hdata : array.data = bigEndian (Kind.width .int32) (y / 256 ^ 4) ++ bigEndian 4 y := by
    rw [h, hy]
    exact bigEndian_add 4 4 y
  rw [nonzero_front .int32 hdata]
  congr 2
  simp only [Kind.width]
  omega

theorem boolValueOrNull_set {b : Bool} (h : setBoolValue array b = .ok x.fValue)
    (hbool : x.fType = .bool) : x.isTrue = .ok b ∧ nonzero .signedChar x.fValue = .ok b := by
  rw [setBoolValue] at h
  have hdata := append_ok h
  have hone : x.fValue.data = bigEndian (Kind.width .signedChar) (if b then 1 else 0) ++ [] := by
    rw [hdata]
    cases b <;> rfl
  have hnonzero := nonzero_front .signedChar hone
  have hsize : x.fValue.size = 1 := by rw [Buffer.size, hone]; rfl
  have hinside : Inside x.fValue 0 1 := by
    refine ⟨le_refl 0, ?_⟩
    rw [hsize]
    rfl
  have hbyte : boolValueOrNull x.fValue 0 false = .ok b := by
    rw [boolValueOrNull, byteValue_inside _ _ hinside, slice, hone]
    cases b <;> rfl
  refine ⟨?_, ?_⟩
  · simp only [Variable.isTrue, hbool, hbyte, Except.mapError]
  · rw [hnonzero]
    cases b <;> rfl

end Reading

section Agreement

variable {x x' : Variable} {k forTrue forTest : Kind} {b : Bool} {s : QString}

theorem setValue_integer {v : k.Value} (h : x.setValue (.integer k v) = .ok x') :
    x'.fType = integerType k ∧ x'.fValue.data = k.encode v := by
  obtain ⟨value, hset, hx⟩ := bind_eq_ok h
  obtain ⟨small, heq⟩ := k.set_eq x.fValue v
  rw [heq] at hset
  rw [← Except.ok.inj hx, ← Except.ok.inj hset]
  exact ⟨rfl, rfl⟩

theorem setValue_bool (h : x.setValue (.bool b) = .ok x') :
    x'.fType = .bool ∧ setBoolValue x.fValue b = .ok x'.fValue := by
  obtain ⟨value, hset, hx⟩ := bind_eq_ok h
  rw [← Except.ok.inj hx]
  exact ⟨rfl, hset⟩

theorem setValue_string (h : x.setValue (.string s) = .ok x') :
    x'.fType = .string ∧ x'.fValue.data = Utf.toUtf8 s := by
  obtain ⟨value, hset, hx⟩ := bind_eq_ok h
  rw [← Except.ok.inj hx]
  exact ⟨rfl, append_ok hset⟩

theorem setValue_binary {b : Buffer} (h : x.setValue (.binary b) = .ok x') :
    x'.fType = .binary ∧ x'.fValue.data = b.data := by
  obtain ⟨value, hset, hx⟩ := bind_eq_ok h
  rw [← Except.ok.inj hx]
  exact ⟨rfl, append_ok hset⟩

/-- What the switches answer. -/
structure Answers (x : Variable) (isTrue test : Bool) : Prop where
  isTrue : x.isTrue = .ok isTrue
  conditional : conditionalTest x = .ok test
  isZero : isZero x = .ok !test

def seenNumber (k : Kind) (n : ℤ) : ℤ := if k.width = 8 then n / 2 ^ 32 % 2 ^ 32 else n

/-- The accessors that the switches pick for a type. -/
structure Picks (x : Variable) (forTrue forTest : Kind) : Prop where
  isTrue : x.isTrue = nonzero forTrue x.fValue
  conditional : conditionalTest x = nonzero forTest x.fValue
  isZero : isZero x = (do return !(← nonzero forTest x.fValue))

theorem Picks.answers {seen test : Bool} (h : Picks x forTrue forTest)
    (hseen : nonzero forTrue x.fValue = .ok seen) (htest : nonzero forTest x.fValue = .ok test) :
    Answers x seen test where
  isTrue := h.isTrue.trans hseen
  conditional := h.conditional.trans htest
  isZero := by
    rw [h.isZero, htest]
    rfl

theorem Picks.narrow {v : k.Value} (h : Picks x forTrue forTest)
    (hdata : x.fValue.data = k.encode v) (hk : k.width ≠ 8) (hseen : forTrue.width = k.width)
    (htest : forTest.width = k.width) :
    Answers x (seenNumber k (k.toInt v) != 0) (k.toInt v != 0) := by
  rw [seenNumber, if_neg hk]
  exact h.answers (nonzero_encode k _ v hseen hdata) (nonzero_encode k _ v htest hdata)

theorem Picks.wide {v : k.Value} (h : Picks x .int32 k)
    (hdata : x.fValue.data = k.encode v) (hk : k.width = 8) :
    Answers x (seenNumber k (k.toInt v) != 0) (k.toInt v != 0) := by
  rw [seenNumber, if_pos hk]
  exact h.answers (nonzero_high k v hk hdata) (nonzero_encode k k v rfl hdata)

theorem picks_of_type {type : VariableType} (htype : x.fType = type)
    (h : ∀ value : Buffer, Picks ⟨x.fName, type, value⟩ forTrue forTest) :
    Picks x forTrue forTest := by
  obtain ⟨name, type', value⟩ := x
  obtain rfl : type' = type := htype
  exact h value

theorem answers_integer {v : k.Value} (h : x.setValue (.integer k v) = .ok x') :
    Answers x' (seenNumber k (k.toInt v) != 0) (k.toInt v != 0) := by
  obtain ⟨htype, hdata⟩ := setValue_integer h
  cases k with
  | char =>
    have hpicks : Picks x' .signedChar .unsignedChar :=
      picks_of_type htype fun _ => ⟨rfl, rfl, rfl⟩
    exact hpicks.narrow hdata (by decide) rfl rfl
  | signedChar =>
    have hpicks : Picks x' .signedChar .signedChar := picks_of_type htype fun _ => ⟨rfl, rfl, rfl⟩
    exact hpicks.narrow hdata (by decide) rfl rfl
  | unsignedChar =>
    have hpicks : Picks x' .signedChar .unsignedChar :=
      picks_of_type htype fun _ => ⟨rfl, rfl, rfl⟩
    exact hpicks.narrow hdata (by decide) rfl rfl
  | int16 =>
    have hpicks : Picks x' .int16 .int16 := picks_of_type htype fun _ => ⟨rfl, rfl, rfl⟩
    exact hpicks.narrow hdata (by decide) rfl rfl
  | uint16 =>
    have hpicks : Picks x' .int16 .uint16 := picks_of_type htype fun _ => ⟨rfl, rfl, rfl⟩
    exact hpicks.narrow hdata (by decide) rfl rfl
  | int32 =>
    have hpicks : Picks x' .int32 .int32 := picks_of_type htype fun _ => ⟨rfl, rfl, rfl⟩
    exact hpicks.narrow hdata (by decide) rfl rfl
  | uint32 =>
    have hpicks : Picks x' .int32 .uint32 := picks_of_type htype fun _ => ⟨rfl, rfl, rfl⟩
    exact hpicks.narrow hdata (by decide) rfl rfl
  | int64 =>
    have hpicks : Picks x' .int32 .int64 := picks_of_type htype fun _ => ⟨rfl, rfl, rfl⟩
    exact hpicks.wide hdata rfl
  | uint64 =>
    have hpicks : Picks x' .int32 .uint64 := picks_of_type htype fun _ => ⟨rfl, rfl, rfl⟩
    exact hpicks.wide hdata rfl

theorem seenNumber_ne_zero_iff (k : Kind) (v : k.Value) :
    ((seenNumber k (k.toInt v) != 0) = (k.toInt v != 0)) ↔
      ¬ (k.width = 8 ∧ 0 < k.toInt v ∧ k.toInt v < 2 ^ 32) := by
  have hrange : k.width = 8 → -2 ^ 63 ≤ k.toInt v ∧ k.toInt v < 2 ^ 64 := by
    intro hk
    cases hsigned : k.signed with
    | true =>
      have := Kind.toInt_signed hsigned v
      rw [hk] at this
      omega
    | false =>
      have := Kind.toInt_unsigned hsigned v
      rw [hk] at this
      omega
  rw [seenNumber, Bool.eq_iff_iff, bne_iff_ne, bne_iff_ne]
  by_cases hk : k.width = 8
  · have := hrange hk
    rw [if_pos hk]
    omega
  · simp [hk]

theorem length_stringValue_toUtf8 {array : Buffer}
    (h : array.data = Utf.toUtf8 s) :
    (stringValue array).length = 0 ↔ s = [] ∨ s = [0xFEFF] := by
  have hunit : Utf.IsUnit Utf.byteOrderMark := ⟨by decide, by decide⟩
  rw [stringValue, h, Utf.toUtf8, Utf.fromUtf8_utf8, List.length_eq_zero_iff]
  constructor
  · intro hnil
    cases hchars : Utf.chars s with
    | nil =>
      refine Or.inl ?_
      by_contra hs
      exact Utf.chars_ne_nil hs hchars
    | cons c rest =>
      rw [hchars, Utf.skipMark] at hnil
      split_ifs at hnil with hmark
      · refine Or.inr ?_
        subst hmark
        obtain ⟨more, rfl, hmore⟩ := Utf.chars_eq_cons hunit hchars
        have hrest : rest = [] := Utf.utf16_injective hnil
        rw [hrest] at hmore
        have hnone : more = [] := by
          by_contra hne
          exact Utf.chars_ne_nil hne hmore
        rw [hnone]
        rfl
      · exact absurd (Utf.utf16_injective hnil) (List.cons_ne_nil _ _)
  · rintro (rfl | rfl)
    · rfl
    · rfl

theorem toUtf8_eq_nil_iff (s : QString) : Utf.toUtf8 s = [] ↔ s = [] := by
  constructor
  · intro h
    by_contra hs
    obtain ⟨c, rest, hchars⟩ := List.exists_cons_of_ne_nil (Utf.chars_ne_nil hs)
    obtain ⟨a, more, hbytes, -⟩ := Utf.firstChar_utf8 c (Utf.utf8 rest)
    rw [Utf.toUtf8, hchars] at h
    have hcons : Utf.utf8 (c :: rest) = Utf.utf8Char c ++ Utf.utf8 rest := rfl
    rw [hcons, hbytes] at h
    cases h
  · rintro rfl
    rfl

theorem answers_string (h : x.setValue (.string s) = .ok x') :
    Answers x' (s != []) (s != [] && s != [0xFEFF]) := by
  obtain ⟨htype, hdata⟩ := setValue_string h
  have hnull : nullValue x'.fValue = (s == []) := by
    rw [nullValue, Buffer.size, hdata, Bool.eq_iff_iff, beq_iff_eq, beq_iff_eq,
      List.length_eq_zero_iff, toUtf8_eq_nil_iff]
  have hlength : ((stringValue x'.fValue).length == 0) = !(s != [] && s != [0xFEFF]) := by
    rw [Bool.eq_iff_iff, beq_iff_eq, length_stringValue_toUtf8 hdata]
    by_cases hs : s = []
    · simp [hs]
    · simp [hs]
  constructor
  · simp only [Variable.isTrue, htype, hnull]
    rfl
  · simp only [conditionalTest, htype, bne, hlength]
    rw [Bool.not_not]
  · simp only [isZero, htype, hlength]

theorem answers_binary {b : Buffer} (h : x.setValue (.binary b) = .ok x') :
    Answers x' (b.size != 0) (b.size != 0) := by
  obtain ⟨htype, hdata⟩ := setValue_binary h
  have hsize : x'.fValue.size = b.size := by rw [Buffer.size, hdata, Buffer.size]
  constructor
  · simp only [Variable.isTrue, htype, nullValue, hsize]
    rfl
  · simp only [conditionalTest, htype, hsize]
  · simp only [isZero, htype, hsize, bne, Bool.not_not]

theorem answers_bool (h : x.setValue (.bool b) = .ok x') : Answers x' b b := by
  obtain ⟨htype, hset⟩ := setValue_bool h
  obtain ⟨htrue, hnonzero⟩ := boolValueOrNull_set hset htype
  refine ⟨htrue, ?_, ?_⟩
  · simp only [conditionalTest, htype, hnonzero]
  · simp only [Variable.isTrue, htype] at htrue
    simp only [isZero, htype, htrue]
    rfl

theorem logicalNot_of_isZero (h : isZero x = .ok b) (result : Variable) :
    ∃ y, logicalNot result x = .ok y ∧ y.fType = .bool ∧ y.isTrue = .ok b := by
  rw [logicalNot, h]
  cases b with
  | true => exact ⟨{ result with fType := .bool, fValue := ⟨[1], by decide⟩ }, rfl, rfl, rfl⟩
  | false => exact ⟨{ result with fType := .bool, fValue := ⟨[0], by decide⟩ }, rfl, rfl, rfl⟩

/-- `is_true()`, the operator `!` and the conditional operator take a value for the same. -/
def Agrees (x : Variable) : Prop :=
  ∃ b, x.isTrue = .ok b ∧ conditionalTest x = .ok b ∧
    ∀ result, ∃ y, logicalNot result x = .ok y ∧ y.fType = .bool ∧ y.isTrue = .ok !b

theorem Answers.agrees {isTrue test : Bool} (h : Answers x isTrue test) :
    Agrees x ↔ isTrue = test := by
  constructor
  · rintro ⟨b, htrue, htest, -⟩
    rw [h.isTrue] at htrue
    rw [h.conditional] at htest
    rw [Except.ok.inj htrue, Except.ok.inj htest]
  · rintro rfl
    exact ⟨isTrue, h.isTrue, h.conditional, fun result => logicalNot_of_isZero h.isZero result⟩

/-- The values that are more than a low half or a byte order mark. -/
def Scalar.Plain : Scalar → Prop
  | .integer k value => ¬ (k.width = 8 ∧ 0 < k.toInt value ∧ k.toInt value < 2 ^ 32)
  | .string value => value ≠ [0xFEFF]
  | _ => True

/-- There is one notion of truth for exactly these values. -/
theorem agrees_iff {s : Scalar} (h : x.setValue s = .ok x') : Agrees x' ↔ s.Plain := by
  cases s with
  | bool b => simp [(answers_bool h).agrees, Scalar.Plain]
  | integer k v =>
    rw [(answers_integer h).agrees]
    exact seenNumber_ne_zero_iff k v
  | string s =>
    rw [(answers_string h).agrees, Scalar.Plain]
    by_cases hs : s = [0xFEFF]
    · simp [hs]
    · simp [hs]
  | binary b => simp [(answers_binary h).agrees, Scalar.Plain]

/-- A negative number, in a variable of 64 bits. -/
theorem agrees_negative : ∃ x, ({} : Variable).setValue (.integer .int64 (-2 : Int64)) = .ok x ∧
    Agrees x := by
  refine ⟨_, rfl, (agrees_iff (s := .integer .int64 (-2 : Int64)) rfl).mpr ?_⟩
  rintro ⟨-, hpositive, -⟩
  exact absurd hpositive (by decide)

/-- The number one, in a variable of 64 bits, is true but for `is_true()`. -/
theorem one_disagrees : ¬ ∀ (x x' : Variable) (s : Scalar), x.setValue s = .ok x' → Agrees x' := by
  intro h
  have hone : ({} : Variable).setValue (.integer .int64 (1 : Int64)) =
      .ok ⟨[], .int64, ⟨[0, 0, 0, 0, 0, 0, 0, 1], by decide⟩⟩ := rfl
  have hagrees := (answers_integer hone).agrees.mp (h _ _ _ hone)
  revert hagrees
  decide

end Agreement

end SnapCpp.Expr

import SnapCpp.ExprVariable

/-!
The binary operators of snap_expr on integers. Every integer becomes an `int64_t`, whatever its
type, and the result gets the type of the operand that is further in the list of types. A number
above the largest `int64_t` is then negative, so that an operator compares it rightly with the
numbers that are above as well and with few others.
-/
namespace SnapCpp.Expr

open CassValue CassInteger

/-- The `integers()` of an operator. -/
inductive Integers where
  | arithmetic (f : Int64 → Int64 → Except Failure Int64)
  | comparison (f : Int64 → Int64 → Bool)

def exactly (n : ℤ) : Except Failure Int64 :=
  if -2 ^ 63 ≤ n ∧ n < 2 ^ 63 then .ok (Int64.ofInt n) else .error .undefined

def opMultiply (a b : Int64) : Except Failure Int64 := exactly (a.toInt * b.toInt)

def opDivide (a b : Int64) : Except Failure Int64 :=
  if b = 0 then .error (.divisionByZero
    (ascii "expr_node::op_divide() called with integers and a denominator set to zero"))
  else exactly (a.toInt.tdiv b.toInt)

def opModulo (a b : Int64) : Except Failure Int64 :=
  if b = 0 then .error (.divisionByZero
    (ascii "expr_node::op_modulo() called with integers and a denominator set to zero"))
  else do
    let _ ← exactly (a.toInt.tdiv b.toInt)
    return Int64.ofInt (a.toInt.tmod b.toInt)

def opAdd (a b : Int64) : Except Failure Int64 := exactly (a.toInt + b.toInt)

def opSubtract (a b : Int64) : Except Failure Int64 := exactly (a.toInt - b.toInt)

def shifted (b : Int64) (f : ℕ → ℤ) : Except Failure Int64 :=
  if 0 ≤ b.toInt ∧ b.toInt < 64 then .ok (Int64.ofInt (f b.toInt.toNat)) else .error .undefined

def opShiftLeft (a b : Int64) : Except Failure Int64 := shifted b fun n => a.toInt * 2 ^ n

def opShiftRight (a b : Int64) : Except Failure Int64 := shifted b fun n => a.toInt / 2 ^ n

def opMinimum (a b : Int64) : Except Failure Int64 := .ok (if a < b then a else b)

def opMaximum (a b : Int64) : Except Failure Int64 := .ok (if a > b then a else b)

def BinaryOperation.integers : BinaryOperation → Integers
  | multiply => .arithmetic opMultiply
  | divide => .arithmetic opDivide
  | modulo => .arithmetic opModulo
  | add => .arithmetic opAdd
  | subtract => .arithmetic opSubtract
  | shiftLeft => .arithmetic opShiftLeft
  | shiftRight => .arithmetic opShiftRight
  | less => .comparison fun a b => a < b
  | lessOrEqual => .comparison fun a b => a ≤ b
  | greater => .comparison fun a b => a > b
  | greaterOrEqual => .comparison fun a b => a ≥ b
  | minimum => .arithmetic opMinimum
  | maximum => .arithmetic opMaximum
  | equal => .comparison fun a b => a == b
  | notEqual => .comparison fun a b => a != b
  | bitwiseAnd => .arithmetic fun a b => .ok (a &&& b)
  | bitwiseXor => .arithmetic fun a b => .ok (a ^^^ b)
  | bitwiseOr => .arithmetic fun a b => .ok (a ||| b)
  | logicalAnd => .comparison fun a b => a != 0 && b != 0
  | logicalXor => .comparison fun a b => (a != 0) ^^ (b != 0)
  | logicalOr => .comparison fun a b => a != 0 || b != 0

def VariableType.kind : VariableType → Option Kind
  | int8 => some .signedChar
  | uint8 => some .unsignedChar
  | int16 => some .int16
  | uint16 => some .uint16
  | int32 => some .int32
  | uint32 => some .uint32
  | int64 => some .int64
  | uint64 => some .uint64
  | _ => none

/-- `safeXValue()`, as a number. -/
def integerValue (k : Kind) (array : Buffer) : Except Failure ℤ := do
  let v ← (k.safeValue array 0 (k.cast 0)).mapError .cassvalue
  return k.toInt v

/-- What `get_variable_value()` gets. -/
inductive Operand where
  | integer (value : Int64) (signedInteger : Bool)
  | floatingPoint (value : Buffer)
  | string (value : QString)

def getVariableValue (x : Variable) : Except Failure (Option Operand) :=
  match x.fType with
  | .bool => do
      let b ← (boolValueOrNull x.fValue 0 false).mapError .cassvalue
      return some (.integer (if b then 1 else 0) true)
  | .double => .ok (some (.floatingPoint x.fValue))
  | .string => .ok (some (.string (stringValue x.fValue)))
  | type =>
      match type.kind with
      | some k => do return some (.integer (Int64.ofInt (← integerValue k x.fValue)) k.signed)
      | none => .ok none

/-- `std::max()` of two types. -/
def VariableType.larger (t u : VariableType) : VariableType := if t.number < u.number then u else t

def incompatibleOperands (op : BinaryOperation) (l r : Variable) : Failure :=
  .logic (ascii "expr_node::binary_operation(\"" ++ op.symbol ++
    ascii "\") called with incompatible sub_result types: " ++ QString.decimal l.fType.number ++
    ascii " x " ++ QString.decimal r.fType.number)

/-- `set_value()` of an `int64_t` that is cast to a type. -/
def store (type : VariableType) (n : Int64) (otherwise : Failure) (result : Variable) :
    Except Failure Variable :=
  match type, type.kind with
  | .bool, _ => do
      let value ← (setBoolValue ⟨[], small_nil⟩ (n != 0)).mapError .cassvalue
      return { result with fType := .bool, fValue := value }
  | type, some k => do
      let value ← (k.set ⟨[], small_nil⟩ (k.cast (n.toInt % 256 ^ k.width).toNat)).mapError
        .cassvalue
      return { result with fType := type, fValue := value }
  | _, none => .error otherwise

/-- What the operators do with operands that are not both integers. -/
abbrev Others := BinaryOperation → Variable → Operand → Operand → Except Failure Variable

/-- `binary_operation()`, and `bool_binary_operation()` for a comparison. -/
def binaryOperation (others : Others) (op : BinaryOperation) (result l r : Variable) :
    Except Failure Variable := do
  let some lvalue ← getVariableValue l | throw (incompatibleOperands op l r)
  let some rvalue ← getVariableValue r | throw (incompatibleOperands op l r)
  match lvalue, rvalue with
  | .integer li _, .integer ri _ =>
      match op.integers with
      | .arithmetic f => do
          store (l.fType.larger r.fType) (← f li ri) (incompatibleOperands op l r) result
      | .comparison f => do
          let value ← (setBoolValue ⟨[], small_nil⟩ (f li ri)).mapError .cassvalue
          return { result with fType := .bool, fValue := value }
  | _, _ => others op result lvalue rvalue

def low (k : Kind) : ℤ := if k.signed then -(256 ^ k.width / 2) else 0

def high (k : Kind) : ℤ := if k.signed then 256 ^ k.width / 2 else 256 ^ k.width

theorem toInt_range (k : Kind) (v : k.Value) : low k ≤ k.toInt v ∧ k.toInt v < high k := by
  rw [low, high]
  cases hk : k.signed with
  | true =>
    have heven : (2 : ℤ) ∣ 256 ^ k.width := dvd_pow (by norm_num) k.width_pos.ne'
    have := Kind.toInt_signed hk v
    simp only [if_true]
    omega
  | false =>
    simp only [Bool.false_eq_true, if_false]
    exact Kind.toInt_unsigned hk v

theorem high_sub_low (k : Kind) : high k - low k = 256 ^ k.width := by
  cases k <;> simp [low, high, Kind.signed, Kind.width]

theorem low_ge (k : Kind) : -2 ^ 63 ≤ low k := by
  cases k <;> simp [low, Kind.signed, Kind.width]

variable {k : Kind}

theorem high_le (hk : k ≠ .uint64) : high k ≤ 2 ^ 63 := by
  cases k with
  | uint64 => exact absurd rfl hk
  | _ => simp [high, Kind.signed, Kind.width]

theorem high_le_uint64 (k : Kind) : high k ≤ 2 ^ 64 := by
  cases k <;> simp [high, Kind.signed, Kind.width]

def resultKind (k k' : Kind) : Kind :=
  if (integerType k).number < (integerType k').number then k' else k

/-- A type that is further in the list holds what the other one holds, but for negative numbers. -/
theorem range_of_number_le {t : Kind} (h : (integerType k).number ≤ (integerType t).number)
    (ht : t ≠ .char) : high k ≤ high t ∧ (t.signed = true → low t ≤ low k) := by
  cases t <;> cases k <;>
    simp [integerType, VariableType.number, high, low, Kind.signed, Kind.width] at h ht ⊢

theorem number_le_resultKind (k k' : Kind) :
    (integerType k).number ≤ (integerType (resultKind k k')).number ∧
      (integerType k').number ≤ (integerType (resultKind k k')).number := by
  rw [resultKind]
  split_ifs <;> omega

theorem resultKind_ne {k' : Kind} (hk : k ≠ .char) (hk' : k' ≠ .char) :
    resultKind k k' ≠ .char := by
  rw [resultKind]
  split_ifs
  · exact hk'
  · exact hk

theorem resultKind_uint64 {k' : Kind} (h : k = .uint64 ∨ k' = .uint64) :
    resultKind k k' = .uint64 := by
  rcases h with rfl | rfl
  · cases k' <;> rfl
  · cases k <;> rfl

theorem eq_uint64_of_le {n : ℤ} (h : n < high k) (hn : 2 ^ 63 ≤ n) : k = .uint64 := by
  by_contra hk
  have := high_le hk
  omega

/-- A number in an `int64_t`. -/
def wrapped (n : ℤ) : ℤ := if 2 ^ 63 ≤ n then n - 2 ^ 64 else n

theorem toInt_ofInt {n : ℤ} (hlow : low k ≤ n) (hhigh : n < high k) :
    (Int64.ofInt n).toInt = wrapped n := by
  have hge := low_ge k
  have hle := high_le_uint64 k
  rw [Int64.toInt_ofInt, wrapped]
  split_ifs with hn
  · rw [← Int.sub_bmod_right]
    exact Int.bmod_eq_of_le (by norm_num; omega) (by norm_num; omega)
  · exact Int.bmod_eq_of_le (by norm_num; omega) (by norm_num; omega)

section Results

variable {x y : Variable} {k : Kind} {v : k.Value}

theorem kind_integerType (hk : k ≠ .char) : (integerType k).kind = some k := by
  cases k with
  | char => exact absurd rfl hk
  | _ => rfl

theorem decodes_of_data {array : Buffer} (h : array.data = k.encode v) : Decodes k array 0 v := by
  have harray : array.data = [] ++ (k.encode v ++ []) := by
    rw [h, List.append_nil, List.nil_append]
  exact decodes_encoded harray rfl

theorem integerValue_encode {array : Buffer} (h : array.data = k.encode v) :
    integerValue k array = .ok (k.toInt v) := by
  rw [integerValue, (decodes_of_data h).safeValue]
  rfl

theorem getVariableValue_integer (hk : k ≠ .char) (h : x.setValue (.integer k v) = .ok y) :
    getVariableValue y = .ok (some (.integer (Int64.ofInt (k.toInt v)) k.signed)) := by
  obtain ⟨htype, hdata⟩ := setValue_integer h
  have hvalue := integerValue_encode hdata
  have hother : getVariableValue y = (do
      return some (.integer (Int64.ofInt (← integerValue k y.fValue)) k.signed)) := by
    cases k with
    | char => exact absurd rfl hk
    | _ => simp only [getVariableValue, htype, integerType, VariableType.kind]
  rw [hother, hvalue]
  rfl

def HoldsNumber (y : Variable) (n : ℤ) : Prop :=
  ∃ k, y.fType.kind = some k ∧ integerValue k y.fValue = .ok n

theorem store_spec (hk : k ≠ .char) (n : Int64) (otherwise : Failure) (result : Variable) :
    ∃ y, store (integerType k) n otherwise result = .ok y ∧ ∀ m, HoldsNumber y m ↔
      low k ≤ m ∧ m < high k ∧ m % 256 ^ k.width = n.toInt % 256 ^ k.width := by
  obtain ⟨small, hset⟩ := k.set_eq ⟨[], by decide⟩ (k.cast (n.toInt % 256 ^ k.width).toNat)
  have hstore : store (integerType k) n otherwise result = .ok { result with
      fType := integerType k, fValue := ⟨_, small⟩ } := by
    have hsome : store (integerType k) n otherwise result = (do
        let value ← (k.set ⟨[], by decide⟩ (k.cast (n.toInt % 256 ^ k.width).toNat)).mapError
          .cassvalue
        return { result with fType := integerType k, fValue := value }) := by
      cases k with
      | char => exact absurd rfl hk
      | _ => rfl
    rw [hsome, hset]
    rfl
  refine ⟨_, hstore, fun m => ?_⟩
  have hpos : (0 : ℤ) < 256 ^ k.width := by positivity
  have hcast := k.toInt_cast (n.toInt % 256 ^ k.width).toNat
  rw [Int.toNat_of_nonneg (Int.emod_nonneg _ hpos.ne'), Int.emod_emod] at hcast
  have hrange := toInt_range k (k.cast (n.toInt % 256 ^ k.width).toNat)
  have hvalue : integerValue k ⟨k.encode (k.cast (n.toInt % 256 ^ k.width).toNat), small⟩ = .ok _ :=
    integerValue_encode rfl
  constructor
  · rintro ⟨k', hk', hm⟩
    rw [kind_integerType hk] at hk'
    obtain rfl := Option.some.inj hk'
    rw [hvalue] at hm
    obtain rfl := Except.ok.inj hm
    exact ⟨hrange.1, hrange.2, hcast⟩
  · rintro ⟨hlow, hhigh, hmod⟩
    refine ⟨k, kind_integerType hk, hvalue.trans (congrArg Except.ok ?_)⟩
    have hwidth := high_sub_low k
    have hdvd := Int.dvd_of_emod_eq_zero (Int.emod_eq_emod_iff_emod_sub_eq_zero.mp
      (hcast.trans hmod.symm))
    exact Int.sub_eq_zero.mp (Int.eq_zero_of_abs_lt_dvd hdvd (abs_lt.mpr (by omega)))

end Results

section Exactness

structure Integer where
  kind : Kind
  typed : kind ≠ .char
  value : kind.Value

def Integer.number (i : Integer) : ℤ := i.kind.toInt i.value

def Integer.scalar (i : Integer) : Scalar := .integer i.kind i.value

def IsTruth (r : Except Failure Variable) (p : Prop) : Prop :=
  ∃ y b, r = .ok y ∧ y.fType = .bool ∧ y.isTrue = .ok b ∧ (b = true ↔ p)

def Defined (r : Except Failure Variable) : Prop :=
  (∃ y, r = .ok y) ∨ ∃ message, r = .error (.divisionByZero message)

def Exact (r : Except Failure Variable) (a b : ℤ) : BinaryOperation → Prop
  | .less => IsTruth r (a < b)
  | .lessOrEqual => IsTruth r (a ≤ b)
  | .greater => IsTruth r (a > b)
  | .greaterOrEqual => IsTruth r (a ≥ b)
  | .equal => IsTruth r (a = b)
  | .notEqual => IsTruth r (a ≠ b)
  | .minimum => ∃ y, r = .ok y ∧ HoldsNumber y (min a b)
  | .maximum => ∃ y, r = .ok y ∧ HoldsNumber y (max a b)
  | _ => Defined r

/-- None or both of two numbers are above the largest `int64_t`. -/
def SameSide (a b : ℤ) : Prop := a < 2 ^ 63 ↔ b < 2 ^ 63

instance (a b : ℤ) : Decidable (SameSide a b) :=
  inferInstanceAs (Decidable (a < 2 ^ 63 ↔ b < 2 ^ 63))

def FitsInt64 (n : ℤ) : Prop := -2 ^ 63 ≤ n ∧ n < 2 ^ 63

def Suits (a b : ℤ) (signedResult : Bool) : BinaryOperation → Prop
  | .less => SameSide a b ∨ b + 2 ^ 64 ≤ a ∨ a + 2 ^ 64 < b
  | .lessOrEqual => SameSide a b ∨ b + 2 ^ 64 < a ∨ a + 2 ^ 64 ≤ b
  | .greater => SameSide a b ∨ b + 2 ^ 64 < a ∨ a + 2 ^ 64 ≤ b
  | .greaterOrEqual => SameSide a b ∨ b + 2 ^ 64 ≤ a ∨ a + 2 ^ 64 < b
  | .equal => a ≠ b + 2 ^ 64 ∧ b ≠ a + 2 ^ 64
  | .notEqual => a ≠ b + 2 ^ 64 ∧ b ≠ a + 2 ^ 64
  | .minimum => SameSide a b ∧ (signedResult = true ∨ 0 ≤ a ∧ 0 ≤ b)
  | .maximum => SameSide a b ∨ b + 2 ^ 64 ≤ a ∨ a + 2 ^ 64 ≤ b
  | .divide => ¬ (wrapped a = -2 ^ 63 ∧ wrapped b = -1)
  | .modulo => ¬ (wrapped a = -2 ^ 63 ∧ wrapped b = -1)
  | .shiftLeft => 0 ≤ b ∧ b < 64
  | .shiftRight => 0 ≤ b ∧ b < 64
  | .multiply => FitsInt64 (wrapped a * wrapped b)
  | .add => FitsInt64 (wrapped a + wrapped b)
  | .subtract => FitsInt64 (wrapped a - wrapped b)
  | _ => True

variable {others : Others} {op : BinaryOperation} {x x' l r result : Variable} {i j : Integer}

theorem larger_integerType (k k' : Kind) :
    (integerType k).larger (integerType k') = integerType (resultKind k k') := by
  rw [VariableType.larger, resultKind]
  split_ifs <;> rfl

/-- The operands have become `int64_t`. -/
theorem binaryOperation_integers (hl : x.setValue i.scalar = .ok l)
    (hr : x'.setValue j.scalar = .ok r) :
    binaryOperation others op result l r = match op.integers with
      | .arithmetic f => (do
          store (integerType (resultKind i.kind j.kind))
            (← f (Int64.ofInt i.number) (Int64.ofInt j.number))
              (incompatibleOperands op l r) result)
      | .comparison f => (do
          let value ← (setBoolValue ⟨[], by decide⟩
            (f (Int64.ofInt i.number) (Int64.ofInt j.number))).mapError .cassvalue
          return { result with fType := .bool, fValue := value }) := by
  rw [binaryOperation, getVariableValue_integer i.typed hl, getVariableValue_integer j.typed hr]
  rw [(setValue_integer hl).1, (setValue_integer hr).1, larger_integerType]
  rfl

theorem isTruth_comparison (b : Bool) (p : Prop) :
    IsTruth (do
      let value ← (setBoolValue ⟨[], by decide⟩ b).mapError .cassvalue
      return { result with fType := .bool, fValue := value }) p ↔ (b = true ↔ p) := by
  have hrun : ∃ y, (do
      let value ← (setBoolValue ⟨[], by decide⟩ b).mapError .cassvalue
      return { result with fType := .bool, fValue := value } : Except Failure Variable) = .ok y ∧
      y.fType = .bool ∧ y.isTrue = .ok b := by
    cases b with
    | true => exact ⟨{ result with fType := .bool, fValue := ⟨[1], by decide⟩ }, rfl, rfl, rfl⟩
    | false => exact ⟨{ result with fType := .bool, fValue := ⟨[0], by decide⟩ }, rfl, rfl, rfl⟩
  obtain ⟨y, hy, htype, htrue⟩ := hrun
  rw [hy]
  constructor
  · rintro ⟨y', b', hy', -, htrue', hp⟩
    rw [← Except.ok.inj hy', htrue] at htrue'
    rwa [Except.ok.inj htrue']
  · intro hp
    exact ⟨y, b, rfl, htype, htrue, hp⟩

section Arithmetic

variable {k : Kind} {otherwise : Failure}

theorem defined_store (hk : k ≠ .char) (n : Int64) :
    Defined (do store (integerType k) (← (.ok n : Except Failure Int64)) otherwise result) := by
  obtain ⟨y, hy, -⟩ := store_spec hk n otherwise result
  exact Or.inl ⟨y, hy⟩

theorem not_defined_undefined : ¬ Defined (.error .undefined) := by
  rintro (⟨y, hy⟩ | ⟨message, hmessage⟩)
  · cases hy
  · cases hmessage

theorem defined_exactly (hk : k ≠ .char) (n : ℤ) :
    Defined (do store (integerType k) (← exactly n) otherwise result) ↔ FitsInt64 n := by
  rw [exactly, FitsInt64]
  split_ifs with hn
  · exact iff_of_true (defined_store hk _) hn
  · exact iff_of_false not_defined_undefined hn

theorem defined_shifted (hk : k ≠ .char) (b : Int64) (f : ℕ → ℤ) :
    Defined (do store (integerType k) (← shifted b f) otherwise result) ↔
      0 ≤ b.toInt ∧ b.toInt < 64 := by
  rw [shifted]
  split_ifs with hb
  · exact iff_of_true (defined_store hk _) hb
  · exact iff_of_false not_defined_undefined hb

/-- A quotient fits unless it is that of the least number and -1. -/
theorem fitsInt64_tdiv {a b : ℤ} (ha : FitsInt64 a) (hb : b ≠ 0) :
    FitsInt64 (a.tdiv b) ↔ ¬ (a = -2 ^ 63 ∧ b = -1) := by
  have habs : (a.tdiv b).natAbs = a.natAbs / b.natAbs := Int.natAbs_tdiv a b
  rw [FitsInt64] at ha ⊢
  constructor
  · rintro hfits ⟨rfl, rfl⟩
    revert hfits
    decide
  · intro hne
    by_cases hone : b.natAbs = 1
    · rw [hone, Nat.div_one] at habs
      by_cases hleast : a = -2 ^ 63
      · obtain rfl : b = 1 := by omega
        rw [Int.tdiv_one]
        exact ha
      · omega
    · have htwo : a.natAbs / b.natAbs ≤ a.natAbs / 2 := Nat.div_le_div_left (by omega) (by norm_num)
      omega

theorem opDivide_defined (hk : k ≠ .char) {a b : Int64} :
    Defined (do store (integerType k) (← opDivide a b) otherwise result) ↔
      ¬ (a.toInt = -2 ^ 63 ∧ b.toInt = -1) := by
  rw [opDivide]
  split_ifs with hb
  · subst hb
    exact iff_of_true (Or.inr ⟨_, rfl⟩) fun h => absurd h.2 (by decide)
  · rw [defined_exactly hk, fitsInt64_tdiv ⟨a.le_toInt, a.toInt_lt⟩]
    exact fun h => hb (Int64.toInt_inj.mp h)

theorem opModulo_defined (hk : k ≠ .char) {a b : Int64} :
    Defined (do store (integerType k) (← opModulo a b) otherwise result) ↔
      ¬ (a.toInt = -2 ^ 63 ∧ b.toInt = -1) := by
  rw [opModulo]
  split_ifs with hb
  · subst hb
    exact iff_of_true (Or.inr ⟨_, rfl⟩) fun h => absurd h.2 (by decide)
  · rw [← fitsInt64_tdiv ⟨a.le_toInt, a.toInt_lt⟩ fun h => hb (Int64.toInt_inj.mp h), exactly,
      FitsInt64]
    split_ifs with hn
    · exact iff_of_true (defined_store hk _) hn
    · exact iff_of_false not_defined_undefined hn

end Arithmetic

theorem Integer.range (i : Integer) : low i.kind ≤ i.number ∧ i.number < high i.kind :=
  toInt_range i.kind i.value

theorem Integer.toInt_ofInt (i : Integer) : (Int64.ofInt i.number).toInt = wrapped i.number :=
  Expr.toInt_ofInt i.range.1 i.range.2

/-- The type of the result of `i` and `j`. -/
def resultOf (i j : Integer) : Kind := resultKind i.kind j.kind

theorem resultOf_ne (i j : Integer) : resultOf i j ≠ .char := resultKind_ne i.typed j.typed

theorem resultOf_eq (i j : Integer) : resultOf i j = i.kind ∨ resultOf i j = j.kind := by
  rw [resultOf, resultKind]
  split_ifs
  · exact Or.inr rfl
  · exact Or.inl rfl

/-- A number beyond an `int64_t` makes the result unsigned. -/
theorem resultOf_uint64 (h : 2 ^ 63 ≤ i.number ∨ 2 ^ 63 ≤ j.number) :
    resultOf i j = .uint64 := by
  refine resultKind_uint64 ?_
  rcases h with h | h
  · exact Or.inl (eq_uint64_of_le i.range.2 h)
  · exact Or.inr (eq_uint64_of_le j.range.2 h)

theorem resultOf_range (i j : Integer) :
    i.number < high (resultOf i j) ∧ j.number < high (resultOf i j) ∧
      ((resultOf i j).signed = true →
        low (resultOf i j) ≤ i.number ∧ low (resultOf i j) ≤ j.number) := by
  obtain ⟨hi, hj⟩ := number_le_resultKind i.kind j.kind
  obtain ⟨hihigh, hilow⟩ := range_of_number_le hi (resultOf_ne i j)
  obtain ⟨hjhigh, hjlow⟩ := range_of_number_le hj (resultOf_ne i j)
  have hirange := i.range
  have hjrange := j.range
  refine ⟨hirange.2.trans_le hihigh, hjrange.2.trans_le hjhigh, fun hs => ⟨?_, ?_⟩⟩
  · exact (hilow hs).trans hirange.1
  · exact (hjlow hs).trans hjrange.1

/-- The number that an operator of `int64_t` is to store, and does store. -/
theorem holds_store_iff (n : Int64) (m : ℤ) (otherwise : Failure) :
    (∃ y, store (integerType (resultOf i j)) n otherwise result = .ok y ∧ HoldsNumber y m) ↔
      low (resultOf i j) ≤ m ∧ m < high (resultOf i j) ∧
        m % 256 ^ (resultOf i j).width = n.toInt % 256 ^ (resultOf i j).width := by
  obtain ⟨y, hy, hholds⟩ := store_spec (resultOf_ne i j) n otherwise result
  rw [← hholds]
  constructor
  · rintro ⟨y', hy', hm⟩
    rwa [← Except.ok.inj (hy.symm.trans hy')] at hm
  · intro hm
    exact ⟨y, hy, hm⟩

theorem low_unsigned {k : Kind} (hk : k.signed = false) : low k = 0 := by
  rw [low, hk]
  rfl

theorem minimum_iff (otherwise : Failure) :
    (∃ y, (opMinimum (Int64.ofInt i.number) (Int64.ofInt j.number) >>= fun n =>
        store (integerType (resultOf i j)) n otherwise result) = .ok y ∧
        HoldsNumber y (min i.number j.number)) ↔
      SameSide i.number j.number ∧
        ((resultOf i j).signed = true ∨ 0 ≤ i.number ∧ 0 ≤ j.number) := by
  have hmin : (if Int64.ofInt i.number < Int64.ofInt j.number then Int64.ofInt i.number
      else Int64.ofInt j.number).toInt = min (wrapped i.number) (wrapped j.number) := by
    rw [← i.toInt_ofInt, ← j.toInt_ofInt]
    split_ifs with hlt
    · rw [Int64.lt_iff_toInt_lt] at hlt
      omega
    · rw [Int64.lt_iff_toInt_lt] at hlt
      omega
  simp only [opMinimum, bind, Except.bind]
  rw [holds_store_iff, hmin, SameSide]
  obtain ⟨hihigh, hjhigh, hlow⟩ := resultOf_range i j
  by_cases hwide : 2 ^ 63 ≤ i.number ∨ 2 ^ 63 ≤ j.number
  · have hresult := resultOf_uint64 hwide
    rw [hresult] at hihigh hjhigh ⊢
    simp only [low, high, Kind.signed, Kind.width, Bool.false_eq_true, if_false, false_or,
      wrapped] at hihigh hjhigh ⊢
    omega
  · have hi : wrapped i.number = i.number := if_neg (by omega)
    have hj : wrapped j.number = j.number := if_neg (by omega)
    rw [hi, hj]
    cases hs : (resultOf i j).signed with
    | true =>
      have := hlow hs
      simp only [true_or, and_true]
      omega
    | false =>
      rw [low_unsigned hs]
      simp only [Bool.false_eq_true, false_or, and_true]
      omega

theorem maximum_iff (otherwise : Failure) :
    (∃ y, (opMaximum (Int64.ofInt i.number) (Int64.ofInt j.number) >>= fun n =>
        store (integerType (resultOf i j)) n otherwise result) = .ok y ∧
        HoldsNumber y (max i.number j.number)) ↔
      SameSide i.number j.number ∨ j.number + 2 ^ 64 ≤ i.number ∨
        i.number + 2 ^ 64 ≤ j.number := by
  have hmax : (if Int64.ofInt i.number > Int64.ofInt j.number then Int64.ofInt i.number
      else Int64.ofInt j.number).toInt = max (wrapped i.number) (wrapped j.number) := by
    rw [← i.toInt_ofInt, ← j.toInt_ofInt]
    split_ifs with hlt
    · rw [gt_iff_lt, Int64.lt_iff_toInt_lt] at hlt
      omega
    · rw [gt_iff_lt, Int64.lt_iff_toInt_lt] at hlt
      omega
  simp only [opMaximum, bind, Except.bind]
  rw [holds_store_iff, hmax, SameSide]
  obtain ⟨hihigh, hjhigh, hlow⟩ := resultOf_range i j
  by_cases hwide : 2 ^ 63 ≤ i.number ∨ 2 ^ 63 ≤ j.number
  · have hresult := resultOf_uint64 hwide
    have hige := low_ge i.kind
    have hjge := low_ge j.kind
    have hirange := i.range
    have hjrange := j.range
    rw [hresult] at hihigh hjhigh ⊢
    simp only [low, high, Kind.signed, Kind.width, Bool.false_eq_true, if_false,
      wrapped] at hihigh hjhigh ⊢
    omega
  · have hi : wrapped i.number = i.number := if_neg (by omega)
    have hj : wrapped j.number = j.number := if_neg (by omega)
    rw [hi, hj]
    have hleast : low (resultOf i j) ≤ max i.number j.number := by
      rcases resultOf_eq i j with h | h
      · rw [h]
        exact i.range.1.trans (le_max_left _ _)
      · rw [h]
        exact j.range.1.trans (le_max_right _ _)
    omega

theorem ofInt_lt_iff (i j : Integer) :
    Int64.ofInt i.number < Int64.ofInt j.number ↔ wrapped i.number < wrapped j.number := by
  rw [Int64.lt_iff_toInt_lt, i.toInt_ofInt, j.toInt_ofInt]

theorem ofInt_le_iff (i j : Integer) :
    Int64.ofInt i.number ≤ Int64.ofInt j.number ↔ wrapped i.number ≤ wrapped j.number := by
  rw [Int64.le_iff_toInt_le, i.toInt_ofInt, j.toInt_ofInt]

theorem ofInt_eq_iff (i j : Integer) :
    Int64.ofInt i.number = Int64.ofInt j.number ↔ wrapped i.number = wrapped j.number := by
  rw [← Int64.toInt_inj, i.toInt_ofInt, j.toInt_ofInt]

/-- An operator is exact on two integers, or defined, for exactly these numbers. -/
theorem binaryOperation_exact_iff (hl : x.setValue i.scalar = .ok l)
    (hr : x'.setValue j.scalar = .ok r) :
    Exact (binaryOperation others op result l r) i.number j.number op ↔
      Suits i.number j.number (resultOf i j).signed op := by
  have hi := i.range
  have hj := j.range
  have hilow := low_ge i.kind
  have hjlow := low_ge j.kind
  have hihigh := high_le_uint64 i.kind
  have hjhigh := high_le_uint64 j.kind
  have hne := resultOf_ne i j
  rw [binaryOperation_integers hl hr]
  cases op with
  | less =>
    refine (isTruth_comparison _ _).trans ?_
    rw [decide_eq_true_eq, ofInt_lt_iff, Suits, SameSide, wrapped, wrapped]
    split_ifs <;> omega
  | lessOrEqual =>
    refine (isTruth_comparison _ _).trans ?_
    rw [decide_eq_true_eq, ofInt_le_iff, Suits, SameSide, wrapped, wrapped]
    split_ifs <;> omega
  | greater =>
    refine (isTruth_comparison _ _).trans ?_
    rw [decide_eq_true_eq, gt_iff_lt, gt_iff_lt, ofInt_lt_iff, Suits, SameSide, wrapped, wrapped]
    split_ifs <;> omega
  | greaterOrEqual =>
    refine (isTruth_comparison _ _).trans ?_
    rw [decide_eq_true_eq, ge_iff_le, ge_iff_le, ofInt_le_iff, Suits, SameSide, wrapped, wrapped]
    split_ifs <;> omega
  | equal =>
    refine (isTruth_comparison _ _).trans ?_
    rw [beq_iff_eq, ofInt_eq_iff, Suits, wrapped, wrapped]
    split_ifs <;> omega
  | notEqual =>
    refine (isTruth_comparison _ _).trans ?_
    rw [bne_iff_ne, ne_eq, ofInt_eq_iff, Suits, wrapped, wrapped]
    split_ifs <;> omega
  | minimum => exact minimum_iff _
  | maximum => exact maximum_iff _
  | divide =>
    refine (opDivide_defined hne).trans ?_
    rw [i.toInt_ofInt, j.toInt_ofInt]
    rfl
  | modulo =>
    refine (opModulo_defined hne).trans ?_
    rw [i.toInt_ofInt, j.toInt_ofInt]
    rfl
  | shiftLeft | shiftRight =>
    refine (defined_shifted hne _ _).trans ?_
    rw [j.toInt_ofInt, Suits, wrapped]
    split_ifs <;> omega
  | multiply | add | subtract =>
    refine (defined_exactly hne _).trans ?_
    rw [i.toInt_ofInt, j.toInt_ofInt]
    rfl
  | bitwiseAnd | bitwiseXor | bitwiseOr => exact iff_of_true (defined_store hne _) trivial
  | logicalAnd | logicalXor | logicalOr =>
    obtain ⟨y, b, hy, -⟩ := (isTruth_comparison _ _).mpr Iff.rfl
    exact iff_of_true (Or.inl ⟨y, hy⟩) trivial

/-- The smaller one of the integers 3 and 5. -/
theorem exact_three_five :
    ∃ l r, ({} : Variable).setValue (.integer .int16 (3 : Int16)) = .ok l ∧
      ({} : Variable).setValue (.integer .uint32 (5 : UInt32)) = .ok r ∧
      Exact (binaryOperation (fun _ _ _ _ => .error .undefined) .minimum {} l r) 3 5 .minimum := by
  refine ⟨_, _, rfl, rfl, ?_⟩
  refine (binaryOperation_exact_iff (i := ⟨.int16, by decide, (3 : Int16)⟩)
    (j := ⟨.uint32, by decide, (5 : UInt32)⟩) rfl rfl).mpr ?_
  exact ⟨by decide, Or.inr (by decide)⟩

/-- The number 2^63 is less than one. -/
theorem large_less_than_one :
    ¬ ∀ (others : Others) (op : BinaryOperation) (x x' l r result : Variable) (i j : Integer),
      x.setValue i.scalar = .ok l → x'.setValue j.scalar = .ok r →
        Exact (binaryOperation others op result l r) i.number j.number op := by
  intro h
  have hless := h (fun _ _ _ _ => .error .undefined) .less {} {} _ _ {}
    ⟨.uint64, by decide, (9223372036854775808 : UInt64)⟩
      ⟨.signedChar, by decide, (1 : Int8)⟩ rfl rfl
  rw [binaryOperation_integers (i := ⟨.uint64, by decide, (9223372036854775808 : UInt64)⟩)
    (j := ⟨.signedChar, by decide, (1 : Int8)⟩) rfl rfl] at hless
  have hfalse := (isTruth_comparison _ _).mp hless
  revert hfalse
  decide

end Exactness

end SnapCpp.Expr

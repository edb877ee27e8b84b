import SnapCpp.ExprIntegers
import SnapCpp.QNumber

/-!
Programs in an archive. A node of a compiled program has a type, a name, the variable of a literal
and its children. `serialize()` writes them as tags with text values, inside one another like the
nodes, and `unserialize()` reads the fields of each node in the order in which they come. What a
`QWriter` writes is what a `QReader` delivers, so an archive is the list of its tags; the texts of
numbers are those of Qt.
-/
namespace SnapCpp.Expr

open CassValue CassInteger

/-- The conversions of a `double`, given by its bits: `QString("%1").arg()` and `toDouble()`. -/
structure Doubles where
  arg : UInt64 → QString
  toDouble : QString → UInt64

/-- `node_type_t`, which can also hold a number without a name. -/
inductive TreeType where
  | unknown
  | loading
  | operationList
  | operationLogicalNot
  | operationBitwiseNot
  | operationNegate
  | operationFunction
  | operationMultiply
  | operationDivide
  | operationModulo
  | operationAdd
  | operationSubtract
  | operationShiftLeft
  | operationShiftRight
  | operationLess
  | operationLessOrEqual
  | operationGreater
  | operationGreaterOrEqual
  | operationMinimum
  | operationMaximum
  | operationEqual
  | operationNotEqual
  | operationBitwiseAnd
  | operationBitwiseXor
  | operationBitwiseOr
  | operationLogicalAnd
  | operationLogicalXor
  | operationLogicalOr
  | operationConditional
  | operationAssignment
  | operationVariable
  | literalBoolean
  | literalInteger
  | literalFloatingPoint
  | literalString
  | variable
  | other (number : ℤ)
deriving DecidableEq

namespace TreeType

def all : List TreeType :=
  [unknown, loading, operationList, operationLogicalNot, operationBitwiseNot, operationNegate,
    operationFunction, operationMultiply, operationDivide, operationModulo, operationAdd,
    operationSubtract, operationShiftLeft, operationShiftRight, operationLess,
    operationLessOrEqual, operationGreater, operationGreaterOrEqual, operationMinimum,
    operationMaximum, operationEqual, operationNotEqual, operationBitwiseAnd,
    operationBitwiseXor, operationBitwiseOr, operationLogicalAnd, operationLogicalXor,
    operationLogicalOr, operationConditional, operationAssignment, operationVariable,
    literalBoolean, literalInteger, literalFloatingPoint, literalString, .variable]

/-- `static_cast<qint32>(f_type)`. -/
def number : TreeType → ℤ
  | other n => n
  | t => all.idxOf t

/-- `static_cast<node_type_t>(type)`. -/
def ofNumber (n : ℤ) : TreeType :=
  if n < 0 then other n else (all[n.toNat]?).getD (other n)

end TreeType

def UnaryOperation.treeType : UnaryOperation → TreeType
  | logicalNot => .operationLogicalNot
  | bitwiseNot => .operationBitwiseNot
  | negate => .operationNegate
  -- the plus sign makes no node
  | identity => .unknown

def BinaryOperation.treeType : BinaryOperation → TreeType
  | multiply => .operationMultiply
  | divide => .operationDivide
  | modulo => .operationModulo
  | add => .operationAdd
  | subtract => .operationSubtract
  | shiftLeft => .operationShiftLeft
  | shiftRight => .operationShiftRight
  | less => .operationLess
  | lessOrEqual => .operationLessOrEqual
  | greater => .operationGreater
  | greaterOrEqual => .operationGreaterOrEqual
  | minimum => .operationMinimum
  | maximum => .operationMaximum
  | equal => .operationEqual
  | notEqual => .operationNotEqual
  | bitwiseAnd => .operationBitwiseAnd
  | bitwiseXor => .operationBitwiseXor
  | bitwiseOr => .operationBitwiseOr
  | logicalAnd => .operationLogicalAnd
  | logicalXor => .operationLogicalXor
  | logicalOr => .operationLogicalOr

def NodeType.treeType : NodeType → TreeType
  | list => .operationList
  | unary op => op.treeType
  | function _ => .operationFunction
  | binary op => op.treeType
  | conditional => .operationConditional
  | assignment _ => .operationAssignment
  | .variable _ => .operationVariable
  | boolean _ => .literalBoolean
  | integer _ => .literalInteger
  | floatingPoint _ => .literalFloatingPoint
  | string _ => .literalString

def NodeType.name : NodeType → QString
  | function name => name
  | assignment name => name
  | .variable name => name
  | _ => []

/-- `expr_node` with all its members. -/
inductive Node where
  | mk (fType : TreeType) (fName : QString) (fVariable : Variable) (fChildren : List Node)

def setDoubleValue (array : Buffer) (value : UInt64) : Result Buffer :=
  setInt64Value array value.toInt64

/-- `set_value()` with a type and a `double` that becomes a `Value`. -/
def Variable.setDouble (x : Variable) (value : UInt64) : Result Variable := do
  return { x with fType := .double, fValue := ← setDoubleValue ⟨[], small_nil⟩ value }

/-- `set_value()` with a type and a text that becomes a `Value`. Unlike `setStringValue()`, the
constructor does not ask for less than 64 megabytes. -/
def Variable.setText (x : Variable) (text : QString) : Result Variable :=
  if h : (Utf.toUtf8 text).length < 2 ^ 31 then
    .ok { x with fType := .string, fValue := ⟨Utf.toUtf8 text, h⟩ }
  else .error .outside

def NodeType.literal (q : Doubles) : NodeType → Result Variable
  | boolean value => ({} : Variable).setValue (.bool value)
  | integer value => ({} : Variable).setValue (.integer .int64 value)
  | floatingPoint text => ({} : Variable).setDouble (q.toDouble text)
  | string value => ({} : Variable).setValue (.string value)
  | _ => .ok {}

mutual

def built (q : Doubles) : ExprNode → Result Node
  | .node type children => do
      return .mk type.treeType type.name (← type.literal q) (← builtAll q children)

def builtAll (q : Doubles) : List ExprNode → Result (List Node)
  | [] => return []
  | child :: rest => do return (← built q child) :: (← builtAll q rest)

end

inductive Tag where
  | value (name text : QString)
  | node (inside : List Tag)

inductive ArchiveFailure where
  | expr (failure : Failure)
  | invalidRead (message : QString)
  | notSupported (message : QString)

abbrev Archived (α : Type) := Except ArchiveFailure α

def ofResult {α : Type} (r : Result α) : Archived α := r.mapError fun f => .expr (.cassvalue f)

def logic {α : Type} (message : String) : Archived α := .error (.expr (.logic (ascii message)))

/-- `QString::toInt()`, which is zero for what is not a number. -/
def toInt (text : QString) : ℤ :=
  ((QNumber.toLongLong text).filter fun n => -2 ^ 31 ≤ n ∧ n < 2 ^ 31).getD 0

def toInt64 (text : QString) : Int64 := Int64.ofInt ((QNumber.toLongLong text).getD 0)

def writeLiteral (q : Doubles) (type : TreeType) (v : Variable) : Archived (List Tag) :=
  match type with
  | .literalBoolean => do
      let b ← ofResult (boolValueOrNull v.fValue 0 false)
      return [.value (ascii "int") (QNumber.number (if b then 1 else 0))]
  | .literalInteger => do
      let n ← ofResult (safeInt64Value v.fValue 0 0)
      return [.value (ascii "int") (QNumber.number n.toInt)]
  | .literalFloatingPoint => do
      let d ← ofResult (safeUInt64Value v.fValue 0 0)
      return [.value (ascii "flt") (q.arg d)]
  | .literalString => return [.value (ascii "str") (stringValue v.fValue)]
  | _ => return []

mutual

def Node.write (q : Doubles) : Node → Archived Tag
  | .mk type name v children => do
      let value ← writeLiteral q type v
      return .node (.value (ascii "type") (QNumber.number type.number) ::
        (if name = [] then [] else [.value (ascii "name") name]) ++ value ++
          (← Node.writeAll q children))

def Node.writeAll (q : Doubles) : List Node → Archived (List Tag)
  | [] => return []
  | child :: rest => do return (← child.write q) :: (← Node.writeAll q rest)

end

structure Fields where
  type : ℤ := TreeType.loading.number
  name : QString := []
  valueInt : Int64 := 0
  valueDbl : UInt64 := 0
  valueStr : QString := []
  children : List Node := []

def Fields.literal (f : Fields) : Archived Variable :=
  match TreeType.ofNumber f.type with
  | .unknown => logic "expr_node::read() loaded a node of type: node_type_t::NODE_TYPE_UNKNOWN"
  | .literalBoolean => ofResult (({} : Variable).setValue (.bool (f.valueInt ≠ 0)))
  | .literalInteger => ofResult (({} : Variable).setValue (.integer .int64 f.valueInt))
  | .literalFloatingPoint => ofResult (({} : Variable).setDouble f.valueDbl)
  | .literalString => ofResult (({} : Variable).setText f.valueStr)
  | _ => return {}

/-- The end of `read()`. -/
def Fields.node (f : Fields) : Archived Node := do
  return .mk (.ofNumber f.type) f.name (← f.literal) f.children

def Fields.readValue (q : Doubles) (f : Fields) (name text : QString) : Archived Fields :=
  if name = ascii "type" then return { f with type := toInt text }
  else if name = ascii "name" then return { f with name := text }
  else if name = ascii "int" then return { f with valueInt := toInt64 text }
  else if name = ascii "flt" then return { f with valueDbl := q.toDouble text }
  else if name = ascii "str" then return { f with valueStr := text }
  else if name = ascii "node" then
    -- `readTag()` reads the text as the tags of a child
    if text = [] then do return { f with children := f.children ++ [← ({} : Fields).node] }
    else .error (.invalidRead (ascii "a tag was expected"))
  else .error (.notSupported (ascii "reading of unknown fields is not yet supported"))

mutual

/-- `readField()`; a child is read before it is added. -/
def readTag (q : Doubles) : Tag → Fields → Archived Fields
  | .value name text, f => f.readValue q name text
  | .node inside, f => do
      let child ← (← readTags q inside {}).node
      return { f with children := f.children ++ [child] }

def readTags (q : Doubles) : List Tag → Fields → Archived Fields
  | [], f => return f
  | tag :: rest, f => do readTags q rest (← readTag q tag f)

end

/-- `load()`: the root is only used to load the data. -/
def load (q : Doubles) (debug : Bool) (tags : List Tag) : Archived Node := do
  let .mk _ _ _ children ← (← readTags q tags {}).node
  if debug && children.length != 1 then
    logic "expr_node::load() did not return exactly one child in the root node"
  else
    match children with
    | [] => logic "expr_node::get_child(0) called with an out of bounds index (max: 0)"
    | child :: _ => return child

def serialize (q : Doubles) (programTree : Node) : Archived (List Tag) := do
  return [← programTree.write q]

def unserialize (q : Doubles) (debug : Bool) (tags : List Tag) : Archived Node :=
  load q debug tags

section Execute

variable {F : Type}

def TreeType.operation (name : QString) : TreeType → Option NodeType
  | operationList => some .list
  | operationLogicalNot => some (.unary .logicalNot)
  | operationBitwiseNot => some (.unary .bitwiseNot)
  | operationNegate => some (.unary .negate)
  | operationFunction => some (.function name)
  | operationMultiply => some (.binary .multiply)
  | operationDivide => some (.binary .divide)
  | operationModulo => some (.binary .modulo)
  | operationAdd => some (.binary .add)
  | operationSubtract => some (.binary .subtract)
  | operationShiftLeft => some (.binary .shiftLeft)
  | operationShiftRight => some (.binary .shiftRight)
  | operationLess => some (.binary .less)
  | operationLessOrEqual => some (.binary .lessOrEqual)
  | operationGreater => some (.binary .greater)
  | operationGreaterOrEqual => some (.binary .greaterOrEqual)
  | operationMinimum => some (.binary .minimum)
  | operationMaximum => some (.binary .maximum)
  | operationEqual => some (.binary .equal)
  | operationNotEqual => some (.binary .notEqual)
  | operationBitwiseAnd => some (.binary .bitwiseAnd)
  | operationBitwiseXor => some (.binary .bitwiseXor)
  | operationBitwiseOr => some (.binary .bitwiseOr)
  | operationLogicalAnd => some (.binary .logicalAnd)
  | operationLogicalXor => some (.binary .logicalXor)
  | operationLogicalOr => some (.binary .logicalOr)
  | operationConditional => some .conditional
  | operationAssignment => some (.assignment name)
  | operationVariable => some (.variable name)
  | _ => none

/-- The switch of `execute()` on the results of the children. -/
def Node.operate (ops : Operations Variable Failure F) (type : TreeType) (name : QString)
    (v result : Variable) (values : List Variable) : Run Variable Failure F Variable :=
  match type.operation name with
  | some op => Expr.operate ops op result values
  | none =>
      match type with
      | .literalBoolean | .literalInteger | .literalFloatingPoint | .literalString => return v
      | .unknown | .loading => throw (.logic (ascii ("expr_node::execute() called with an " ++
          "incompatible result type: node_type_t::NODE_TYPE_UNKNOWN or " ++
          "node_type_t::NODE_TYPE_LOADING")))
      | .variable => throw (.logic (ascii "expr_node::execute() called with an incompatible type: "
          ++ QNumber.number type.number))
      | _ => return result

mutual

/-- `execute()` on the nodes with all their members. -/
def Node.execute (ops : Operations Variable Failure F) :
    Node → Variable → Run Variable Failure F Variable
  | .mk .operationConditional _ _ (c :: x :: y :: _), result => do
      let value ← c.execute ops result
      if ← MonadExcept.ofExcept (ops.truth value) then x.execute ops value
      else y.execute ops value
  | .mk type name v children, result => do
      Node.operate ops type name v result (← Node.executeAll ops children)

def Node.executeAll (ops : Operations Variable Failure F) :
    List Node → Run Variable Failure F (List Variable)
  | [] => return []
  | child :: rest => do
      let value ← child.execute ops ops.undefined
      return value :: (← Node.executeAll ops rest)

end

end Execute

end SnapCpp.Expr

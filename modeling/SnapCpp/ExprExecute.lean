import SnapCpp.ExprLists

/-!
The execution of a program. The children of a node are executed in order and the node gets all
their results; only a conditional picks the child to execute. What the operators and the functions
do with the results is a parameter. The meaning of an expression is defined beside it, where an
operand and a parameter have one value each and parentheses do nothing.
-/
namespace SnapCpp.Expr

section Program

/-- The operators on `variable_t` and the functions. They have the variable that their result is
written to, the results of the children, and the functions that are registered. -/
structure Operations (V E F : Type) where
  unary : UnaryOperation → V → List V → Except E V
  binary : BinaryOperation → V → List V → Except E V
  truth : V → Except E Bool
  call : QString → V → List V → F → Except E V × F
  boolean : Bool → V
  integer : Int64 → V
  floatingPoint : QString → V
  string : QString → V
  undefined : V

structure Environment (V F : Type) where
  variableMap : QString → Option V
  functions : F

/-- The variables that were assigned before an exception stay assigned. -/
abbrev Run (V E F α : Type) := ExceptT E (StateM (Environment V F)) α

variable {V E F : Type} (ops : Operations V E F)

def callFunction (name : QString) (result : V) (values : List V) : Run V E F V :=
  ExceptT.mk fun env =>
    let (value, functions) := ops.call name result values env.functions
    (value, { env with functions })

/-- `assignment()`. -/
def assign (name : QString) (value : V) : Run V E F V := do
  modify fun env => { env with variableMap := Function.update env.variableMap name (some value) }
  return value

/-- `load_variable()`: the result stays what it was when there is no such variable. -/
def loadVariable (name : QString) (result : V) : Run V E F V := do
  return ((← get).variableMap name).getD result

/-- The switch of `execute()` on the results of the children. The nodes that are compiled have the
children that are read here. -/
def operate (type : NodeType) (result : V) (values : List V) : Run V E F V :=
  match type with
  | .list => return values.getLast?.getD result
  | .unary op => MonadExcept.ofExcept (ops.unary op result values)
  | .binary op => MonadExcept.ofExcept (ops.binary op result values)
  | .function name => callFunction ops name result values
  | .assignment name => assign name (values.headD ops.undefined)
  | .variable name => loadVariable name result
  | .boolean value => return ops.boolean value
  | .integer value => return ops.integer value
  | .floatingPoint text => return ops.floatingPoint text
  | .string value => return ops.string value
  | .conditional => return result

mutual

/-- `execute()`, with the variable that the result is written to. -/
def execute : ExprNode → V → Run V E F V
  | .node .conditional (c :: x :: y :: _), result => do
      let value ← execute c result
      if ← MonadExcept.ofExcept (ops.truth value) then execute x value else execute y value
  | .node type children, result => do operate ops type result (← executeAll children)

def executeAll : List ExprNode → Run V E F (List V)
  | [] => return []
  | child :: rest => do
      let value ← execute child ops.undefined
      return value :: (← executeAll rest)

end

end Program

section Meaning

variable {V E F : Type} (ops : Operations V E F)

mutual

def eval : Expression → V → Run V E F V
  | .identifier name, result => loadVariable name result
  | .boolean value, _ => return ops.boolean value
  | .string value, _ => return ops.string value
  | .integer value, _ => return ops.integer value.toInt64
  | .floatingPoint text, _ => return ops.floatingPoint text
  | .unary .identity e, result => eval e result
  | .unary op e, result => do
      let value ← eval e ops.undefined
      MonadExcept.ofExcept (ops.unary op result [value])
  | .binary op l r, result => do
      let left ← eval l ops.undefined
      let right ← eval r ops.undefined
      MonadExcept.ofExcept (ops.binary op result [left, right])
  | .conditional c x y, result => do
      let value ← eval c result
      if ← MonadExcept.ofExcept (ops.truth value) then eval x value else eval y value
  | .assignment (.identifier name) e, _ => do assign name (← eval e ops.undefined)
  | .comma l e, _ => do
      let _ ← eval l ops.undefined
      eval e ops.undefined
  | .paren l, result => eval l result
  | .call name l, result => do callFunction ops name.value result (← arguments l)
  | .callEmpty name, result => callFunction ops name.value result []
  -- these are not parsed
  | .assignment l _, result => eval l result
  | .tildeEqual l _, result => eval l result
termination_by e => (sizeOf e, 0)

def arguments : Expression → Run V E F (List V)
  | .comma l e => do
      let values ← arguments l
      return values ++ [← eval e ops.undefined]
  | e => return [← eval e ops.undefined]
termination_by e => (sizeOf e, 1)

end

end Meaning

end SnapCpp.Expr

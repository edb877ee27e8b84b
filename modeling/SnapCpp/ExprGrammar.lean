import SnapCpp.ParserEnds

/-!
The expressions of snap_expr. The grammar has one set of choices for each level of precedence,
and each rule has a reducer that makes a node of the program from the nodes of its tokens. The
lists between parentheses and those of the parameters of a function are flattened on the way.
-/
namespace SnapCpp.Expr

open SnapCpp.Parser (Token Item Rule Grammar)

inductive BinaryOperation where
  | multiply | divide | modulo | add | subtract | shiftLeft | shiftRight
  | less | lessOrEqual | greater | greaterOrEqual | minimum | maximum | equal | notEqual
  | bitwiseAnd | bitwiseXor | bitwiseOr | logicalAnd | logicalXor | logicalOr
deriving DecidableEq

/-- The unary operators; the plus sign makes no node. -/
inductive UnaryOperation where
  | logicalNot | bitwiseNot | identity | negate
deriving DecidableEq

/-- `node_type_t`, with the name of a node and the value of a literal. -/
inductive NodeType where
  | list
  | unary (op : UnaryOperation)
  | function (name : QString)
  | binary (op : BinaryOperation)
  | conditional
  | assignment (name : QString)
  | variable (name : QString)
  | boolean (value : Bool)
  | integer (value : Int64)
  | floatingPoint (text : QString)
  | string (value : QString)
deriving DecidableEq

/-- `expr_node`. -/
inductive ExprNode where
  | node (type : NodeType) (children : List ExprNode)

def ascii (s : String) : QString := QString.ascii s

def BinaryOperation.symbol : BinaryOperation → QString
  | multiply => ascii "*"
  | divide => ascii "/"
  | modulo => ascii "%"
  | add => ascii "+"
  | subtract => ascii "-"
  | shiftLeft => ascii "<<"
  | shiftRight => ascii ">>"
  | less => ascii "<"
  | lessOrEqual => ascii "<="
  | greater => ascii ">"
  | greaterOrEqual => ascii ">="
  | minimum => ascii "<?"
  | maximum => ascii ">?"
  | equal => ascii "=="
  | notEqual => ascii "!="
  | bitwiseAnd => ascii "&"
  | bitwiseXor => ascii "^"
  | bitwiseOr => ascii "|"
  | logicalAnd => ascii "&&"
  | logicalXor => ascii "^^"
  | logicalOr => ascii "||"

def UnaryOperation.symbol : UnaryOperation → QString
  | logicalNot => ascii "!"
  | bitwiseNot => ascii "~"
  | identity => ascii "+"
  | negate => ascii "-"

def keywordTrue : ℕ := 1
def keywordFalse : ℕ := 2

/-- The choices that are `self: next | self op next | ...`. -/
inductive BinaryChoices where
  | multiplicativeExpr | additiveExpr | shiftExpr | relationalExpr | equalityExpr
  | bitwiseAndExpr | bitwiseXorExpr | bitwiseOrExpr
  | logicalAndExpr | logicalXorExpr | logicalOrExpr
deriving DecidableEq

inductive Choices where
  | qualifiedName
  | exprList
  | unaryExpr
  | binary (b : BinaryChoices)
  | conditionalExpr
  | assignment
  | expr
deriving DecidableEq

namespace BinaryChoices

def next : BinaryChoices → Choices
  | multiplicativeExpr => .unaryExpr
  | additiveExpr => .binary multiplicativeExpr
  | shiftExpr => .binary additiveExpr
  | relationalExpr => .binary shiftExpr
  | equalityExpr => .binary relationalExpr
  | bitwiseAndExpr => .binary equalityExpr
  | bitwiseXorExpr => .binary bitwiseAndExpr
  | bitwiseOrExpr => .binary bitwiseXorExpr
  | logicalAndExpr => .binary bitwiseOrExpr
  | logicalXorExpr => .binary logicalAndExpr
  | logicalOrExpr => .binary logicalXorExpr

def operations : BinaryChoices → List BinaryOperation
  | multiplicativeExpr => [.multiply, .divide, .modulo]
  | additiveExpr => [.add, .subtract]
  | shiftExpr => [.shiftLeft, .shiftRight]
  | relationalExpr => [.less, .lessOrEqual, .greater, .greaterOrEqual, .minimum, .maximum]
  | equalityExpr => [.equal, .notEqual]
  | bitwiseAndExpr => [.bitwiseAnd]
  | bitwiseXorExpr => [.bitwiseXor]
  | bitwiseOrExpr => [.bitwiseOr]
  | logicalAndExpr => [.logicalAnd]
  | logicalXorExpr => [.logicalXor]
  | logicalOrExpr => [.logicalOr]

end BinaryChoices

def literal (s : String) : Item Choices := .literal (ascii s)

/-- The rules of `compile_expression()`. -/
def rules : Choices → List (Rule Choices)
  | .qualifiedName =>
      [⟨.identifier, []⟩, ⟨.choices .qualifiedName, [literal "::", .identifier]⟩]
  | .exprList =>
      [⟨.choices .expr, []⟩, ⟨.choices .exprList, [literal ",", .choices .expr]⟩]
  | .unaryExpr =>
      [⟨literal "!", [.choices .unaryExpr]⟩,
       ⟨literal "~", [.choices .unaryExpr]⟩,
       ⟨literal "+", [.choices .unaryExpr]⟩,
       ⟨literal "-", [.choices .unaryExpr]⟩,
       ⟨literal "(", [.choices .exprList, literal ")"]⟩,
       ⟨.choices .qualifiedName, [literal "(", literal ")"]⟩,
       ⟨.choices .qualifiedName, [literal "(", .choices .exprList, literal ")"]⟩,
       ⟨.identifier, []⟩,
       ⟨.keyword keywordTrue, []⟩,
       ⟨.keyword keywordFalse, []⟩,
       ⟨.string, []⟩,
       ⟨.integer, []⟩,
       ⟨.floatingPoint, []⟩]
  | .binary b =>
      ⟨.choices b.next, []⟩ ::
        b.operations.map fun op => ⟨.choices (.binary b), [.literal op.symbol, .choices b.next]⟩
  | .conditionalExpr =>
      [⟨.choices (.binary .logicalOrExpr), []⟩,
       ⟨.choices .conditionalExpr, [literal "?", .choices .expr, literal ":",
         .choices (.binary .logicalOrExpr)]⟩]
  | .assignment =>
      [⟨.choices .conditionalExpr, []⟩,
       ⟨.identifier, [literal ":=", .choices .conditionalExpr]⟩]
  | .expr => [⟨.choices .assignment, []⟩]

theorem binary_next_ne (b : BinaryChoices) : b.next ≠ .binary b := by
  cases b <;> decide

def grammar : Grammar Choices where
  rules := rules
  noSelf := by
    intro c r hr hself
    cases c with
    | binary b =>
      simp only [rules, List.mem_cons, List.mem_map] at hr
      rcases hr with rfl | ⟨op, _, rfl⟩
      · simp [Rule.items, binary_next_ne] at hself
      · simp [Rule.items] at hself
    | _ =>
      simp only [rules, List.mem_cons, List.not_mem_nil, or_false] at hr
      revert hself
      rcases hr with rfl | rfl | rfl | rfl | rfl | rfl | rfl | rfl | rfl | rfl | rfl | rfl | rfl <;>
        simp [Rule.items]

mutual

/-- What `list_expr_level_child()` puts in the place of a child: the items of a list. -/
def leveled : ExprNode → List ExprNode
  | .node .list children => levelChildren children
  | .node type children => [.node type children]

def levelChildren : List ExprNode → List ExprNode
  | [] => []
  | child :: rest => leveled child ++ levelChildren rest

end

/-- `list_expr_level_child()`. -/
def levelChild : ExprNode → ExprNode
  | .node type children => .node type (levelChildren children)

/-- What the reducers read of the tokens of a rule: a token, or a node with its user data. The
name is the value of the first token of a qualified name. -/
inductive Value where
  | token (t : Token)
  | empty
  | node (name : QString) (data : Option ExprNode)

namespace Value

/-- `get_user_data()`. -/
def data : Value → Option ExprNode
  | node _ data => data
  | _ => none

/-- `get_value().toString()` of a name or a string. -/
def text : Value → QString
  | token (.identifier name) => name
  | token (.string value) => value
  | _ => []

def name : Value → QString
  | node name _ => name
  | _ => []

def ofData (data : Option ExprNode) : Value := node [] data

@[simp] theorem data_ofData (data : Option ExprNode) : (ofData data).data = data := rfl

/-- `list_expr_copy_result()`, and `list_expr_identity()` with the other token. -/
def copy (x : Value) : Value := ofData x.data

/-- `list_expr_binary_operation()`. -/
def binaryOperation (op : BinaryOperation) (l r : Value) : Value :=
  ofData (l.data.bind fun l => r.data.map fun r => .node (.binary op) [l, r])

/-- `list_expr_unary_operation()`. -/
def unaryOperation (op : UnaryOperation) (x : Value) : Value :=
  ofData (x.data.map fun x => .node (.unary op) [x])

/-- `list_expr_conditional()`. -/
def conditional (c at_ af : Value) : Value :=
  ofData (c.data.bind fun c => at_.data.bind fun x => af.data.map fun y =>
    .node .conditional [c, x, y])

/-- `list_expr_list()`. -/
def list (l i : Value) : Value :=
  ofData (l.data.bind fun l => i.data.map fun i => .node .list [l, i])

/-- `list_expr_level_list()`. -/
def levelList (l : Value) : Value := ofData (l.data.map levelChild)

/-- `list_expr_function()`: the items of a list are the parameters. -/
def function (name l : Value) : Value :=
  ofData (l.data.map fun l => .node (.function name.name) (leveled l))

/-- `list_expr_function_no_param()`. -/
def functionNoParam (name : Value) : Value := ofData (some (.node (.function name.name) []))

/-- `list_expr_assignment()`. -/
def assignment (name i : Value) : Value :=
  ofData (i.data.map fun i => .node (.assignment name.text) [i])

def leaf (type : NodeType) : Value := ofData (some (.node type []))

end Value

def reducer : Choices → ℕ → List Value → Value
  | .qualifiedName, 0, [name] => .node name.text none
  | .qualifiedName, 1, [n, _, name] => .node (n.name ++ ascii "::" ++ name.text) none
  | .exprList, 0, [x] => x.copy
  | .exprList, 1, [l, _, i] => .list l i
  | .unaryExpr, 0, [_, x] => .unaryOperation .logicalNot x
  | .unaryExpr, 1, [_, x] => .unaryOperation .bitwiseNot x
  | .unaryExpr, 2, [_, x] => x.copy
  | .unaryExpr, 3, [_, x] => .unaryOperation .negate x
  | .unaryExpr, 4, [_, l, _] => l.levelList
  | .unaryExpr, 5, [name, _, _] => .functionNoParam name
  | .unaryExpr, 6, [name, _, l, _] => .function name l
  | .unaryExpr, 7, [name] => .leaf (.variable name.text)
  | .unaryExpr, 8, [_] => .leaf (.boolean true)
  | .unaryExpr, 9, [_] => .leaf (.boolean false)
  | .unaryExpr, 10, [s] => .leaf (.string s.text)
  | .unaryExpr, 11, [.token (.integer n)] => .leaf (.integer n.toInt64)
  | .unaryExpr, 12, [.token (.floatingPoint text)] => .leaf (.floatingPoint text)
  | .binary _, 0, [x] => x.copy
  | .binary b, i + 1, [l, _, r] =>
      match b.operations[i]? with
      | some op => .binaryOperation op l r
      | none => .empty
  | .conditionalExpr, 0, [x] => x.copy
  | .conditionalExpr, 1, [c, _, x, _, y] => .conditional c x y
  | .assignment, 0, [x] => x.copy
  | .assignment, 1, [name, _, i] => .assignment name i
  | .expr, 0, [x] => x.copy
  | _, _, _ => .empty

mutual

def reduced : Parser.Tree Choices → Value
  | .token t => .token t
  | .empty => .empty
  | .node c i tokens => reducer c i (reducedAll tokens)

def reducedAll : List (Parser.Tree Choices) → List Value
  | [] => []
  | t :: rest => reduced t :: reducedAll rest

end

/-- `compile_expression()` on the tokens of a script: no node where it is not an expression. -/
def compileExpression (turns : ℕ) (tokens : List Token) : Option (Option ExprNode) :=
  (grammar.parse turns .expr tokens).map fun result => result.bind fun t => (reduced t).data

end SnapCpp.Expr

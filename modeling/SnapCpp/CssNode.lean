import SnapCpp.ConfigFile
import SnapCpp.CssCharacter

/-!
The nodes of the trees that the preprocessor of style sheets works on. Trees share their nodes
through pointers: a state holds the nodes that were made so far, and a pointer is the number of its
node. The member functions that read or change the children of a node throw when its type has none.
-/
namespace SnapCpp.CssNode

open Css (Bytes)

/-- `node_type_t`, in the order of the source. -/
inductive NodeType where
  | unknown
  | add
  | and
  | assignment
  | atKeyword
  | boolean
  | cdc
  | cdo
  | closeCurlybracket
  | closeParenthesis
  | closeSquarebracket
  | colon
  | color
  | column
  | comma
  | comment
  | conditional
  | dashMatch
  | decimalNumber
  | divide
  | dollar
  | eofToken
  | equal
  | exclamation
  | fontMetrics
  | function
  | greaterEqual
  | greaterThan
  | hash
  | identifier
  | includeMatch
  | integer
  | lessEqual
  | lessThan
  | modulo
  | multiply
  | notEqual
  | nullToken
  | openCurlybracket
  | openParenthesis
  | openSquarebracket
  | percent
  | period
  | placeholder
  | power
  | preceded
  | prefixMatch
  | reference
  | scope
  | semicolon
  | string
  | substringMatch
  | subtract
  | suffixMatch
  | unicodeRange
  | url
  | variable
  | variableFunction
  | whitespace
  | anPlusB
  | arg
  | array
  | componentValue
  | declaration
  | list
  | map
  | frame
deriving DecidableEq, Repr

structure Position where
  fFilename : Bytes := []
  fPage : ℤ := 1
  fLine : ℤ := 1
  fTotalLine : ℤ := 1
deriving DecidableEq, Repr

structure Node where
  fType : NodeType := .unknown
  fPosition : Position := {}
  fBoolean : Bool := false
  fInteger : ℤ := 0
  fDecimalNumber : UInt64 := 0
  fString : Bytes := []
  fLowercaseString : Bytes := []
  fChildren : List ℕ := []
  fVariables : OrderedMap Bytes ℕ := .empty
  fFlags : OrderedMap Bytes Bool := .empty

instance : Inhabited Node := ⟨{}⟩

inductive Exception where
  | unsupported (what : String) (type : NodeType)
  | logic (what : String)
  | overflow (what : String)
deriving DecidableEq, Repr

/-- What `error::instance()` is given with the mode `ERROR_ERROR`. -/
structure ErrorMessage where
  position : Position
  text : String
deriving DecidableEq, Repr

/-- The nodes at the first `size` pointers, and the errors that were reported. -/
structure State where
  node : ℕ → Node
  size : ℕ
  errors : List ErrorMessage := []

namespace State

variable (s : State) (p q : ℕ) (n : Node)

def set : State := { s with node := Function.update s.node p n }

/-- `new node(type, pos)` and the pointer to it. -/
def make (type : NodeType) (pos : Position) : ℕ × State :=
  (s.size, { s.set s.size { fType := type, fPosition := pos } with size := s.size + 1 })

def report (position : Position) (text : String) : State :=
  { s with errors := s.errors ++ [⟨position, text⟩] }

@[simp] theorem set_node_self : (s.set p n).node p = n := Function.update_self ..

theorem set_node_of_ne (h : q ≠ p) : (s.set p n).node q = s.node q :=
  Function.update_of_ne h ..

@[simp] theorem set_size : (s.set p n).size = s.size := rfl

@[simp] theorem set_errors : (s.set p n).errors = s.errors := rfl

@[simp] theorem report_node (pos : Position) (text : String) :
    (s.report pos text).node = s.node := rfl

end State

section Members

variable (s : State) (p : ℕ)

def typeSupportsInteger (type : NodeType) : Except Exception Unit :=
  match type with
  | .anPlusB | .arg | .atKeyword | .comment | .integer | .unicodeRange => .ok ()
  | _ => .error (.unsupported "integer" type)

def supportsChildren : NodeType → Bool
  | .arg | .array | .atKeyword | .componentValue | .declaration | .function | .list | .map
  | .openCurlybracket | .openParenthesis | .openSquarebracket | .variableFunction | .frame => true
  | _ => false

def typeSupportsChildren (type : NodeType) : Except Exception Unit :=
  if supportsChildren type then .ok () else .error (.unsupported "children" type)

/-- `is()`. -/
def hasType (type : NodeType) : Bool := (s.node p).fType = type

def setInteger (integer : ℤ) : Except Exception State := do
  typeSupportsInteger (s.node p).fType
  return s.set p { s.node p with fInteger := integer }

def empty : Except Exception Bool := do
  typeSupportsChildren (s.node p).fType
  return (s.node p).fChildren.isEmpty

def size : Except Exception ℕ := do
  typeSupportsChildren (s.node p).fType
  return (s.node p).fChildren.length

/-- What `add_child()` leaves of a list: no end of file, and no whitespace after another. -/
def appendChild (type : ℕ → NodeType) (children : List ℕ) (child : ℕ) : List ℕ :=
  if type child ≠ .eofToken ∧ (type child ≠ .whitespace ∨
      ∀ last ∈ children.getLast?, type last ≠ .whitespace) then children ++ [child]
  else children

def addChild (child : ℕ) : Except Exception State := do
  typeSupportsChildren (s.node p).fType
  return s.set p { s.node p with
    fChildren := appendChild (fun q => (s.node q).fType) (s.node p).fChildren child }

/-- `remove_child()` takes away the first pointer to the child. -/
def removeChild (child : ℕ) : Except Exception State := do
  typeSupportsChildren (s.node p).fType
  if child ∈ (s.node p).fChildren then
    return s.set p { s.node p with fChildren := (s.node p).fChildren.erase child }
  else
    throw (.logic "remove_child() called with a node which is not a child of this node.")

def getChild (idx : ℕ) : Except Exception ℕ := do
  typeSupportsChildren (s.node p).fType
  match (s.node p).fChildren[idx]? with
  | some child => return child
  | none => throw (.overflow "get_child() called with an index out of range.")

def getLastChild : Except Exception ℕ := do
  typeSupportsChildren (s.node p).fType
  match (s.node p).fChildren.getLast? with
  | some child => return child
  | none => throw (.overflow "get_child() called with an index out of range.")

def takeOverChildrenOf (n : ℕ) : Except Exception State := do
  typeSupportsChildren (s.node p).fType
  typeSupportsChildren (s.node n).fType
  let s' := s.set p { s.node p with fChildren := (s.node n).fChildren }
  return s'.set n { s'.node n with fChildren := [] }

end Members

end SnapCpp.CssNode

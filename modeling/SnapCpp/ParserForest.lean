import SnapCpp.ParserStates

/-!
The states of the parser as it keeps them: in memory, with a pointer to their parent and a list of
their children. States share a parent, which is copied before it is changed for one of several
children; states that are freed are used again. The current states are walked in a copy of their
list while the list changes.
-/
namespace SnapCpp.Parser

/-- `choices`: those of the grammar, and the root that `parse()` makes. -/
inductive Choices (C : Type) where
  | root
  | own (c : C)
deriving DecidableEq

/-- `parser_state`. -/
structure ParserState (C : Type) where
  fParent : Option ℕ := none
  fChildren : List ℕ := []
  fChoices : Option (Choices C) := none
  fRule : ℕ := 0
  fPosition : ℕ := 0
  fNode : Option (List (Tree C)) := none

/-- The states in memory, the number of states that were made, the current ones and those that
were freed. -/
structure Forest (C : Type) where
  heap : ℕ → ParserState C := fun _ => {}
  next : ℕ := 0
  current : List ℕ := []
  freeStates : List ℕ := []

namespace Forest

variable {C : Type}

def modify (s : ℕ) (f : ParserState C → ParserState C) (w : Forest C) : Forest C :=
  { w with heap := Function.update w.heap s (f (w.heap s)) }

/-- A parent gets another child. -/
def adopt (parent : Option ℕ) (s : ℕ) (w : Forest C) : Forest C :=
  match parent with
  | none => w
  | some p => w.modify p fun state => { state with fChildren := state.fChildren ++ [s] }

def alloc (parent : Option ℕ) (c : Choices C) (rule : ℕ) (w : Forest C) : ℕ × Forest C :=
  match w.freeStates.getLast? with
  | none =>
      let w' := { w with next := w.next + 1 }
      (w.next, (w'.modify w.next fun _ =>
        { fParent := parent, fChoices := some c, fRule := rule }).adopt parent w.next)
  | some s =>
      let w' := { w with freeStates := w.freeStates.dropLast }
      (s, (w'.modify s fun state =>
        { state with
          fParent := parent, fChoices := some c, fRule := rule, fPosition := 0,
          fNode := none }).adopt parent s)

/-- The state is not used any more. -/
def cleared (state : ParserState C) : ParserState C :=
  { state with fParent := none, fChoices := none }

/-- `clear()`, which throws if the state has children or is no child of its parent. -/
def clear (s : ℕ) (w : Forest C) : Option (Forest C) :=
  if (w.heap s).fChildren ≠ [] then none
  else
    match (w.heap s).fParent with
    | none => some (w.modify s cleared)
    | some p =>
        if s ∈ (w.heap p).fChildren then
          some ((w.modify p fun state =>
            { state with fChildren := state.fChildren.erase s }).modify s cleared)
        else none

/-- `free()`, the children first; their number is not known beforehand. -/
def freeFrom : ℕ → ℕ → Forest C → Option (Forest C)
  | 0, _, _ => none
  | fuel + 1, s, w =>
      match (w.heap s).fChildren.getLast? with
      | some child => (freeFrom fuel child w).bind (freeFrom fuel s)
      | none =>
          (w.clear s).map fun w =>
            { w with current := w.current.erase s, freeStates := w.freeStates ++ [s] }

def free (s : ℕ) (w : Forest C) : Option (Forest C) := freeFrom (2 * w.next + 1) s w

/-- `copy()`: another child of the same parent. -/
def copy (source : ℕ) (w : Forest C) : Option (ℕ × Forest C) :=
  (w.heap source).fChoices.map fun c =>
    let state := w.heap source
    let r := w.alloc state.fParent c state.fRule
    (r.1, r.2.modify r.1 fun copied =>
      { copied with fPosition := state.fPosition, fNode := state.fNode })

/-- `add_token()` and `add_node()`. -/
def addNode (s : ℕ) (t : Tree C) (w : Forest C) : Forest C :=
  w.modify s fun state => { state with fNode := some (state.fNode.getD [] ++ [t]) }

def forward (s : ℕ) (w : Forest C) : Forest C :=
  w.modify s fun state => { state with fPosition := state.fPosition + 1 }

/-- The root that `parse()` starts with. -/
def rooted : Forest C where
  heap s := if s = 0 then { fChoices := some .root } else {}
  next := 1
  current := [0]

def push (s : ℕ) (w : Forest C) : Forest C := { w with current := w.current ++ [s] }

end Forest

section Parsing

variable {C : Type} [DecidableEq C] (G : Grammar C) (start : C)

/-- The rules of choices; the end of the input, which only the root has, is no item. -/
def Choices.rules : Choices C → List (List (Option (Item C)))
  | root => [[some (.choices start), none]]
  | own c => (G.rules c).map fun r => r.items.map some

namespace Forest

/-- The item at the position of a state. -/
def expected (s : ℕ) (w : Forest C) : Option (Option (Item C)) :=
  let state := w.heap s
  state.fChoices.bind fun c => ((c.rules G start)[state.fRule]?).bind (·[state.fPosition]?)

/-- The state that gets the node of a child: a parent of several children is copied. -/
def receiver (p : ℕ) (w : Forest C) : Option (ℕ × Forest C) :=
  if 1 < (w.heap p).fChildren.length then w.copy p else some (p, w)

/-- Other children of the parent: the recursive rules of choices go on with the node. -/
def recursive (move : ℕ → Forest C → Option (Forest C)) (p : ℕ) (c : C) (node : Tree C)
    (w : Forest C) : Option (Forest C) :=
  ((Choices.own c).rules G start).zipIdx.foldlM (fun w rule =>
    if rule.1.head? = some (some (.choices c)) then
      let x := w.alloc (some p) (.own c) rule.2
      move x.1 ((x.2.addNode x.1 node).push x.1)
    else some w) w

/-- `next_token()`. The root is not reduced: `parse()` returns at its last item. -/
def nextToken : ℕ → ℕ → Forest C → Option (Forest C)
  | 0, _, _ => none
  | fuel + 1, s, w =>
      let w := w.forward s
      let state := w.heap s
      state.fChoices.bind fun choices =>
        ((choices.rules G start)[state.fRule]?).bind fun rule =>
          if state.fPosition < rule.length then some w
          else if state.fPosition = rule.length then
            match choices, state.fParent with
            | .own c, some p =>
                let node : Tree C := .node c state.fRule (state.fNode.getD [])
                (w.recursive G start (nextToken fuel) p c node).bind fun w =>
                  (w.receiver p).bind fun x =>
                    ((x.2.addNode x.1 node).free s).bind fun w =>
                      nextToken fuel x.1 (w.push x.1)
            | _, _ => none
          else w.free s

/-- A token or a node is given to a state, which moves on. A chain of parents is not longer than
the number of states. -/
def advance (s : ℕ) (t : Tree C) (w : Forest C) : Option (Forest C) :=
  nextToken G start (w.next + 1) s (w.addNode s t)

/-- The choices of a state are followed by children, but for the recursive rules. -/
def followChoices (s : ℕ) (c : C) (w : Forest C) : Option (Forest C) :=
  (((Choices.own c).rules G start).zipIdx.foldlM (fun w rule =>
    if rule.1.head? = some (some (.choices c)) then some w
    else
      let x := w.alloc (some s) (.own c) rule.2
      some (x.2.push x.1)) w).map fun w => { w with current := w.current.erase s }

/-- A turn of the first loop with a state, and whether the loop is to start again. -/
def follow (s : ℕ) (w : Forest C) : Option (Forest C × Bool) :=
  match w.expected G start s with
  | none => none
  | some (some (.choices c)) => (w.followChoices G start s c).map fun w => (w, true)
  | some (some .empty) => (w.advance G start s .empty).map fun w => (w, true)
  | some _ => some (w, false)

/-- A turn of the second loop with a token. -/
def tryToken (t : Token) (s : ℕ) (w : Forest C) : Option (Forest C) :=
  match w.expected G start s with
  | none => none
  | some (some (.choices _)) => none
  | some (some .empty) => none
  | some none => w.free s
  | some (some item) => if item.accepts t then w.advance G start s (.token t) else w.free s

/-- The second loop at the end of the input: the root has the result. -/
def tryEnd : List ℕ → Forest C → Option (Option (Tree C))
  | [], w => if w.current = [] then some none else none
  | s :: rest, w =>
      match w.expected G start s with
      | none => none
      | some (some (.choices _)) => none
      | some (some .empty) => none
      | some none => (((w.heap s).fNode.getD [])[0]?).map some
      | some (some _) => (w.free s).bind (tryEnd rest)

/-- The turns of a loop over a copy of the current states. -/
def walk (turn : ℕ → Forest C → Option (Forest C × Bool)) (w : Forest C) :
    Option (Forest C × Bool) :=
  w.current.foldlM (fun x s => (turn s x.1).map fun y => (y.1, x.2 || y.2)) (w, false)

/-- The first loop. -/
def followAll : ℕ → Forest C → Option (Forest C)
  | turns, w =>
      (w.walk (follow G start)).bind fun x =>
        if x.2 then
          match turns with
          | 0 => none
          | turns + 1 => followAll turns x.1
        else some x.1

def tryAll (t : Token) (w : Forest C) : Option (Forest C) :=
  (w.walk fun s w => (tryToken G start t s w).map fun w => (w, false)).map Prod.fst

def parseFrom (turns : ℕ) : List Token → Forest C → Option (Option (Tree C))
  | tokens, w =>
      if w.current = [] then some none
      else
        (w.followAll G start turns).bind fun w =>
          match tokens with
          | [] => w.tryEnd G start w.current
          | t :: tokens => (w.tryAll G start t).bind (parseFrom turns tokens)

/-- `grammar::parse()` with the result of `get_result()`; `none` where it throws, or its first
loop does not end in so many turns. -/
def parse (turns : ℕ) (tokens : List Token) : Option (Option (Tree C)) :=
  parseFrom G start turns tokens rooted

end Forest
end Parsing

end SnapCpp.Parser

import SnapCpp.ParserGrammar
import SnapCpp.Saturation

/-!
The parser runs all the alternatives of a grammar at once. A state is at a position of a rule,
over the states that wait for its choices. Here each one has a stack of its own; the states in
memory, which share their parents, run as these do. Between two tokens the choices are followed
and the empty tokens are taken until every state waits for a token.
-/
namespace SnapCpp.Parser

/-- `parser_state` without its parent: the items from `f_position` on, and `f_node`. -/
structure Frame (C : Type) where
  choices : C
  rule : ℕ
  todo : List (Item C)
  node : List (Tree C)

inductive Stack (C : Type) where
  | root (start : C)
  | accept (result : Tree C)
  | frame (top : Frame C) (parent : Stack C)

def Stack.expected {C : Type} : Stack C → Option (Item C)
  | root start => some (.choices start)
  | accept _ => none
  | frame top _ => top.todo.head?

namespace Grammar

variable {C : Type} [DecidableEq C] (G : Grammar C)

def recursiveStates (c : C) (t : Tree C) (parent : Stack C) : List (Stack C) :=
  (G.rules c).zipIdx.filterMap fun (r, i) =>
    if r.first = .choices c then some (.frame ⟨c, i, r.rest, [t]⟩ parent) else none

def followedStates (c : C) (state : Stack C) : List (Stack C) :=
  (G.rules c).zipIdx.filterMap fun (r, i) =>
    if r.first = .choices c then none else some (.frame ⟨c, i, r.items, []⟩ state)

/-- `next_token()` on a state whose node is given a token or a node: the states that are then
current. A rule at its end is reduced in its parent. -/
def nextToken (t : Tree C) : Stack C → List (Stack C)
  | .root _ => [.accept t]
  | .accept _ => []
  | .frame top parent =>
      match top.todo.tail with
      | [] =>
          let t := .node top.choices top.rule (top.node ++ [t])
          G.recursiveStates top.choices t parent ++ nextToken t parent
      | item :: items => [.frame { top with todo := item :: items, node := top.node ++ [t] } parent]

/-- A state that is not at the end of its rule keeps its place. -/
def moved (t : Tree C) (top : Frame C) (parent : Stack C) : Saturation.Turn (Stack C) :=
  match top.todo.tail with
  | [] => .becomes none (G.nextToken t (.frame top parent))
  | item :: items =>
      .becomes (some (.frame { top with todo := item :: items, node := top.node ++ [t] } parent)) []

def follow (state : Stack C) : Saturation.Turn (Stack C) :=
  match state with
  | .root start => .becomes none (G.followedStates start state)
  | .accept _ => .stays
  | .frame top parent =>
      match top.todo with
      | .choices c :: _ => .becomes none (G.followedStates c state)
      | .empty :: _ => G.moved .empty top parent
      | _ => .stays

def tryToken (t : Token) (state : Stack C) : Saturation.Turn (Stack C) :=
  match state with
  | .frame top parent =>
      match top.todo with
      | item :: _ => if item.accepts t then G.moved (.token t) top parent else .becomes none []
      | [] => .becomes none []
  | _ => .becomes none []

def accepted : Stack C → Option (Tree C)
  | .accept t => some t
  | _ => none

/-- The loop of `grammar::parse()` with the tokens that are left and the current states; `none`
where the first loop does not end in so many turns. -/
def parseFrom (turns : ℕ) : List Token → List (Stack C) → Option (Option (Tree C))
  | [], current =>
      (Saturation.saturate G.follow turns current).map fun current => current.findSome? accepted
  | t :: tokens, current =>
      if current = [] then some none
      else
        (Saturation.saturate G.follow turns current).bind fun current =>
          parseFrom turns tokens (Saturation.pass (G.tryToken t) current)

/-- `grammar::parse()` with the result of `get_result()`. -/
def parse (turns : ℕ) (start : C) (tokens : List Token) : Option (Option (Tree C)) :=
  G.parseFrom turns tokens [.root start]

end Grammar
end SnapCpp.Parser

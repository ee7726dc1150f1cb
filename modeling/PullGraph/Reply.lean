import PullGraph.Graph

/-!
# Replies

What a step says when it succeeds. `SocketView` and `NodeView` are snapshots of a socket and a node.
-/

namespace PullGraph

/-- A socket at a moment. -/
structure SocketView where
  socket : Socket
  state : SocketState
  /-- The owner is alive. -/
  alive : Bool
  deriving DecidableEq, Repr

/-- A node at a moment. -/
structure NodeView where
  id : NodeId
  typeName : String
  computing : Bool
  /-- How often its script was called, for a node with a script. -/
  calls : Option Nat
  inputs : Inputs
  outputs : List SocketView
  deriving DecidableEq, Repr

namespace Graph

variable (g : Graph)

/-- The snapshot of a socket. -/
def viewSocket (s : Socket) : SocketView := ⟨s, g.state s, g.alive s.owner⟩

/-- The kind of a node. -/
def logic (id : NodeId) : Logic := ((g.node? id).map (·.logic)).getD default

variable {g} in
theorem logic_congr {g' : Graph} {id : NodeId}
    (h : (g'.node? id).map (·.logic) = (g.node? id).map (·.logic)) : g'.logic id = g.logic id := by
  simp only [logic, h]

/-- The snapshot of a node. -/
def viewNode (id : NodeId) : NodeView where
  id := id
  typeName := g.typeName id
  computing := g.computing id
  calls := if (g.logic id).isScript then some (g.calls id) else none
  inputs := g.inputs id
  outputs := (g.sockets id).map g.viewSocket

end Graph

/-- The answer of a step. -/
inductive Reply where
  /-- There is nothing to say, or nothing there. -/
  | nothing
  | flag (b : Bool)
  | id (n : NodeId)
  | value (v : Value)
  | text (s : String)
  | socket (view : SocketView)
  | binding (s : Socket)
  | inputs (i : Inputs)
  | logic (l : Logic)
  | node (view : NodeView)
  | report (r : Report)

instance : Inhabited Reply := ⟨.nothing⟩

/-- What the two ways to end a step are. -/
abbrev Result := Except StepError Reply

end PullGraph

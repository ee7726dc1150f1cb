import PullGraph.Graph
import PullGraph.Table

/-!
# Handles

What a program holds on to, under labels: nodes, sockets, sets of inputs, and identities. A node
handle and the bindings of a set of inputs keep nodes alive; sockets and identities do not.
-/

namespace PullGraph

/-- The four tables of a program. -/
structure Handles where
  nodes : Table NodeId
  sockets : Table Socket
  inputs : Table Inputs
  ids : Table NodeId
  deriving Inhabited

namespace Handles

/-- Four empty tables. -/
def empty : Handles := ⟨.empty, .empty, .empty, .empty⟩

/-- Keeps a node handle. Its identity stays known under the label when the handle is dropped. -/
def keepNode (h : Handles) (label : String) (id : NodeId) : Handles :=
  { h with nodes := h.nodes.insert label id, ids := h.ids.insert label id }

/-- The nodes that the handles hold, one entry for each hold. -/
def holds (h : Handles) : List NodeId :=
  h.nodes.values ++ h.inputs.values.flatMap (·.feeders)

end Handles

/-- The entry of a label, which has to be there. -/
def Table.find {α : Type} (t : Table α) (label : String) : Except StepError α :=
  match t.get? label with
  | some a => .ok a
  | none => .error .noHandle

/-- A graph and what a program holds of it. -/
structure Workspace where
  graph : Graph
  handles : Handles
  deriving Inhabited

namespace Workspace

/-- The workspace in which every program starts. -/
def empty : Workspace := ⟨.empty, .empty⟩

variable (w : Workspace)

/-- Replaces the graph. -/
def setGraph (g : Graph) : Workspace := { w with graph := g }

/-- Keeps a node handle, and its identity with it. -/
def keepNode (label : String) (id : NodeId) : Workspace :=
  { w with handles := w.handles.keepNode label id }

/-- Drops a node handle. -/
def dropNode (label : String) : Workspace :=
  { w with handles := { w.handles with nodes := w.handles.nodes.erase label } }

/-- Keeps a socket. -/
def keepSocket (label : String) (s : Socket) : Workspace :=
  { w with handles := { w.handles with sockets := w.handles.sockets.insert label s } }

/-- Drops a socket. -/
def dropSocket (label : String) : Workspace :=
  { w with handles := { w.handles with sockets := w.handles.sockets.erase label } }

/-- Keeps a set of inputs. -/
def keepInputs (label : String) (inputs : Inputs) : Workspace :=
  { w with handles := { w.handles with inputs := w.handles.inputs.insert label inputs } }

/-- Drops a set of inputs. -/
def dropInputs (label : String) : Workspace :=
  { w with handles := { w.handles with inputs := w.handles.inputs.erase label } }

/-- Keeps an identity. -/
def keepId (label : String) (id : NodeId) : Workspace :=
  { w with handles := { w.handles with ids := w.handles.ids.insert label id } }

end Workspace

end PullGraph

import PullGraph.Graph

/-!
# Validation

A depth-first walk from a node to the nodes that feed it, over all bindings that hold a node. It
computes nothing.

* A `Walk` carries the marks that nodes were given so far, the latest first, and the issues found.
* `Graph.visit` marks a node as being on the path, looks at its inputs in the order of declaration,
  and marks it as done. `Graph.look` is the look at one input.
* `Graph.validate` is the report of the walk from a node.

A node is visited only if it has no mark yet, so a path is never longer than the number of nodes;
this bounds the depth of `visit`.
-/

namespace PullGraph

/-- How far the walk is with a node. -/
inductive Mark where
  /-- On the current path. -/
  | visiting
  | done
  deriving DecidableEq, Repr

/-- A walk in progress. -/
structure Walk where
  /-- All marks that were given, the latest first. -/
  marks : List (NodeId × Mark)
  issues : List Issue
  deriving DecidableEq, Repr

namespace Walk

/-- A walk that has not begun. -/
def start : Walk := ⟨[], []⟩

variable (walk : Walk)

/-- The latest mark of a node. -/
def mark? (id : NodeId) : Option Mark := walk.marks.lookup id

/-- Marks a node. -/
def mark (id : NodeId) (m : Mark) : Walk := { walk with marks := (id, m) :: walk.marks }

/-- Notes an issue. -/
def report (issue : Issue) : Walk := { walk with issues := walk.issues ++ [issue] }

end Walk

namespace Graph

variable (g : Graph)

/-- Looks at one input of a node, and visits what it is bound to if that has no mark. -/
def look (visit : NodeId → Walk → Walk) (id : NodeId) (walk : Walk) (slot : Slot) : Walk :=
  match slot.binding with
  | none => walk.report (.unconnected id slot.name)
  | some ⟨socket, none⟩ =>
    if (g.cell? socket).isSome then walk else walk.report (.detached id slot.name socket.name)
  | some ⟨socket, some feeder⟩ =>
    match walk.mark? feeder with
    | some .visiting => walk.report (.cycle id slot.name ⟨feeder, socket.name⟩)
    | some .done => walk
    | none => visit feeder walk

/-- Visits a node and all nodes without a mark that it depends on, up to a depth. -/
def visit : Nat → NodeId → Walk → Walk
  | 0, _, walk => walk
  | depth + 1, id, walk =>
    ((g.inputs id).slots.foldl (g.look (visit depth) id) (walk.mark id .visiting)).mark id .done

/-- What is wrong with the wiring that a read of a node depends on. -/
def validate (root : NodeId) : Report := ⟨(g.visit g.nodes.size root .start).issues⟩

end Graph

end PullGraph

/-!
# Nodes and sockets by name

A node is known by its ordinal, and a socket by the node that owns it and the output it stands for.
Both are names: they stay meaningful when the node is gone.
-/

namespace PullGraph

/-- The identity of a node: its place in the order of creation. -/
structure NodeId where
  ordinal : Nat
  deriving DecidableEq, Repr, Inhabited

/-- The written form of an identity. -/
def NodeId.text (n : NodeId) : String := String.ofList ('#' :: Nat.toDigits 10 n.ordinal)

/-- A single-value cell: one output of one node. -/
structure Socket where
  owner : NodeId
  name : String
  deriving DecidableEq, Repr, Inhabited

/-- Where a socket is in its life. -/
inductive SocketState where
  /-- Nothing was written and the owner is not at work. -/
  | unrealized
  /-- Nothing was written and the owner is computing. -/
  | computing
  /-- A value is there. -/
  | valid
  deriving DecidableEq, Repr

/-- The written form of a state. -/
def SocketState.text : SocketState → String
  | .unrealized => "Unrealized"
  | .computing => "Computing"
  | .valid => "Valid"

end PullGraph

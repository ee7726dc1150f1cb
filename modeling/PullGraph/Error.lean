import PullGraph.Name
import PullGraph.Socket

/-!
# What can go wrong

* `GraphError`: a wiring, a write or a read that the graph refuses, with `GraphError.message`.
* `StepError`: why a step has no result. Besides a `GraphError` that is a reference to nothing.
-/

namespace PullGraph

/-- A refusal of the graph. -/
inductive GraphError where
  /-- No input or output has this name. -/
  | unknownKey (key : String)
  /-- An input was given something that is not a socket. -/
  | typeMismatch (key : String)
  /-- An input or an output was to have a name that is refused. -/
  | invalidName (name : String) (fault : NameFault)
  /-- A socket was written by another node than its owner. -/
  | ownershipViolation (socket : Socket) (writer : NodeId)
  /-- A socket was read while its owner was computing. -/
  | cycleDetected (socket : Socket)
  /-- The owner finished computing and left the socket that was read unset. -/
  | invariantViolation (socket : Socket)
  /-- An input was read that has no binding. -/
  | unconnectedInput (node : NodeId) (input : String)
  /-- An unset socket was read whose owner is gone. -/
  | ownerDropped (output : String)
  /-- A compute gave up. -/
  | computeFailed (node : NodeId) (message : String)
  deriving DecidableEq, Repr

/-- The report of an error. -/
def GraphError.message : GraphError → String
  | .unknownKey key => "Unknown key: '" ++ key ++ "' is not a declared port"
  | .typeMismatch key =>
    "Type mismatch: input '" ++ key ++ "' can only be bound to a Socket or left unconnected"
  | .invalidName name fault => "Invalid name '" ++ name ++ "': " ++ fault.text
  | .ownershipViolation socket writer =>
    "Ownership violation: socket '" ++ socket.name ++ "' belongs to node " ++ socket.owner.text ++
      ", write attempted by " ++ writer.text
  | .cycleDetected socket =>
    "Cycle detected: output '" ++ socket.name ++ "' of node " ++ socket.owner.text ++
      " was demanded while it was being computed"
  | .invariantViolation socket =>
    "Invariant violation: node " ++ socket.owner.text ++ " did not set output '" ++ socket.name ++
      "' during compute"
  | .unconnectedInput node input =>
    "Input '" ++ input ++ "' of node " ++ node.text ++ " is not connected"
  | .ownerDropped output =>
    "The node owning output '" ++ output ++ "' was dropped before the value was computed"
  | .computeFailed node message => "Compute failed in node " ++ node.text ++ ": " ++ message

/-- Why a step has no result. -/
inductive StepError where
  /-- The graph refused. -/
  | graph (e : GraphError)
  /-- A label stands for nothing. -/
  | noHandle
  /-- The step only makes sense inside a compute. -/
  | notComputing
  deriving DecidableEq, Repr

/-- The result of an operation of the graph, as that of a step. -/
def StepError.ofGraph {α : Type} (r : Except GraphError α) : Except StepError α :=
  r.mapError .graph

namespace NamePolicy

variable (policy : NamePolicy)

/-- Reports a name that the policy refuses. -/
def check (name : String) : Except GraphError Unit :=
  match policy.fault? name with
  | some fault => .error (.invalidName name fault)
  | none => .ok ()

/-- Reports the first name of a list that is refused or repeated. -/
def checkAll (names : List String) : Except GraphError Unit :=
  match policy.firstFault? names with
  | some (name, fault) => .error (.invalidName name fault)
  | none => .ok ()

theorem checkAll_eq_ok_iff {names : List String} :
    policy.checkAll names = .ok () ↔
      (∀ name ∈ names, policy.fault? name = none) ∧ names.Nodup := by
  rw [← firstFault?_eq_none_iff, checkAll]
  cases policy.firstFault? names <;> simp

end NamePolicy

end PullGraph

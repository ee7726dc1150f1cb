import PullGraph.Name
import PullGraph.Value.Basic

/-!
# Steps and kinds of nodes

A program over a graph is a list of steps, and what a node computes is such a list too.

* References (`NodeRef`, `SocketRef`, `InputsRef`, `WriterRef`) name things by label, or stand for
  the node that is computing.
* An `Action` is one step. A `Demand` reads a socket and may start computes; a `Query` only looks;
  an `Edit` changes the graph or the tables and starts nothing.
* An `Instr` is a step inside a compute, or a choice between two lists of them.
* `Logic` is the kind of a node: its inputs and outputs, its type name and, for each call, its
  program (`Logic.program`).
-/

namespace PullGraph

/-- A node: the one that is computing, or the one under a label. -/
inductive NodeRef where
  | self
  | label (name : String)
  deriving DecidableEq, Repr

/-- The identity that a write is made with: that of the computing node, or one under a label. -/
inductive WriterRef where
  | self
  | label (name : String)
  deriving DecidableEq, Repr

/-- A socket: the one under a label, or an output of a node. -/
inductive SocketRef where
  | label (name : String)
  | output (node : NodeRef) (name : String)
  deriving DecidableEq, Repr

/-- A set of inputs: the one under a label, or that of a node. -/
inductive InputsRef where
  | label (name : String)
  | ofNode (node : NodeRef)
  deriving DecidableEq, Repr

/-- Where the value of a write comes from. -/
inductive Source where
  | constant (v : Value)
  /-- The value of a register. -/
  | register (name : String)
  /-- The array of the values of registers. -/
  | registers (names : List String)
  /-- The number of the current call of the computing node, 0 outside of computes. -/
  | callNumber

/-- A read. It may start the compute of the owner. -/
inductive Demand where
  | output (node : NodeRef) (name : String)
  | input (node : NodeRef) (name : String)
  /-- As `input`, but an unconnected input has no value instead of being an error. -/
  | optionalInput (node : NodeRef) (name : String)
  | socket (s : SocketRef)
  deriving DecidableEq, Repr

/-- What can be described in words. -/
inductive Subject where
  | node (n : NodeRef)
  | outputs (n : NodeRef)
  | socket (s : SocketRef)
  | inputs (i : InputsRef)
  deriving DecidableEq, Repr

/-- A look that changes nothing. -/
inductive Query where
  | logic (node : NodeRef)
  | inspect (node : NodeRef)
  /-- Validates what a node depends on, and logs the report if a summary is wanted. -/
  | validate (node : NodeRef) (summary : Bool)
  | socket (s : SocketRef)
  | sameSocket (a b : SocketRef)
  | inputs (i : InputsRef)
  | binding (i : InputsRef) (name : String)
  /-- The node that the binding of an input holds. -/
  | feeder (i : InputsRef) (name : String)
  | check (policy : NamePolicy) (name : String)
  | checkAll (policy : NamePolicy) (names : List String)
  | describe (subject : Subject)
  deriving DecidableEq, Repr

/-- The dynamic type that a value is passed to an input with. -/
inductive DynamicType where
  /-- A socket; without one, a value of another type. -/
  | socket
  | optional
  | other
  deriving DecidableEq, Repr

mutual

/-- The kind of a node: what it declares and computes. -/
inductive Logic where
  /-- A constant on output `v`. -/
  | value (v : Value)
  /-- The sum of the inputs `v1` and `v2` on output `v`. -/
  | add
  /-- No inputs, no outputs and nothing to compute. -/
  | bare
  /-- Inputs only. -/
  | sink (inputs : List String)
  /-- Outputs only, which it never sets. -/
  | hollow (outputs : List String)
  /-- Inputs, outputs and a type name, with a program for each call; the last program serves all
  later calls. -/
  | script (inputs outputs : List String) (typeName : String) (programs : List (List Instr))

/-- A change of the graph or of the tables, which starts no compute. -/
inductive Edit where
  | create (label : String) (policy : NamePolicy) (logic : Logic)
  /-- Takes an identity that belongs to no node. -/
  | freshId (label : String)
  | copyNode (node : NodeRef) (label : String)
  | dropNode (label : String)
  | setOutput (node : NodeRef) (name : String) (source : Source)
  /-- Sets an output to the sum of two registers. -/
  | setSum (node : NodeRef) (name : String) (left right : String)
  | connect (node : NodeRef) (name : String) (s : SocketRef)
  | setInput (node : NodeRef) (name : String) (s : Option SocketRef)
  | disconnect (node : NodeRef) (name : String)
  | keepOutput (node : NodeRef) (name : String) (label : String)
  | dropSocket (label : String)
  | setValue (s : SocketRef) (writer : WriterRef) (source : Source)
  | keepOwner (s : SocketRef) (label : String)
  | newInputs (label : String) (policy : NamePolicy) (names : List String)
  | copyInputs (i : InputsRef) (label : String)
  | dropInputs (label : String)
  | keepFeeder (i : InputsRef) (name : String) (label : String)
  | bindInput (inputs : String) (name : String) (s : Option SocketRef)
  | bindDynamic (inputs : String) (name : String) (type : DynamicType) (s : Option SocketRef)

/-- One step. -/
inductive Action where
  /-- A read; a value that it yields goes to the register `into`, if one is given. -/
  | demand (d : Demand) (into : Option String)
  | query (q : Query)
  | edit (e : Edit)
  /-- Gives up the current compute. -/
  | fail (message : String)

/-- A step of a compute. -/
inductive Instr where
  /-- A step whose failure ends the compute, unless it is only an attempt. -/
  | act (action : Action) (attempt : Bool)
  /-- The first list if the register has the value, otherwise the second. -/
  | branch (register : String) (is : Value) (yes no : List Instr)

end

instance : Inhabited Logic := ⟨.bare⟩

namespace Logic

/-- The names of the inputs, in the order of declaration. -/
def inputNames : Logic → List String
  | .add => ["v1", "v2"]
  | .sink inputs => inputs
  | .script inputs _ _ _ => inputs
  | _ => []

/-- The names of the outputs, in the order of declaration. -/
def outputNames : Logic → List String
  | .value _ => ["v"]
  | .add => ["v"]
  | .hollow outputs => outputs
  | .script _ outputs _ _ => outputs
  | _ => []

/-- The name of the kind, as reports give it. -/
def typeName : Logic → String
  | .value _ => "Value"
  | .add => "Add"
  | .bare => "lazyflow_driver::Bare"
  | .sink _ => "lazyflow_driver::Sink"
  | .hollow _ => "lazyflow_driver::Hollow"
  | .script _ _ typeName _ => typeName

/-- Whether the computes of the kind report their steps. -/
def isScript : Logic → Bool
  | .script .. => true
  | _ => false

/-- The steps of the compute with the given number, counted from 1. -/
def program (logic : Logic) (call : Nat) : List Instr :=
  match logic with
  | .value v => [.act (.edit (.setOutput .self "v" (.constant v))) false]
  | .add =>
    [.act (.demand (.input .self "v1") (some "v1")) false,
      .act (.demand (.input .self "v2") (some "v2")) false,
      .act (.edit (.setSum .self "v" "v1" "v2")) false]
  | .script _ _ _ programs => (programs[call - 1]?.or programs.getLast?).getD []
  | _ => []

end Logic

end PullGraph

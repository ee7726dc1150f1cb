import PullGraph.Inputs
import PullGraph.Outputs
import PullGraph.Record
import PullGraph.Script

/-!
# The graph

A graph is the sequence of all identities that were ever given out, each with the record of its node
if it has one. A node that has died keeps its record: its sockets may still be read.

* `Graph.node?` finds a record, `Graph.update` changes one, `Graph.push` adds one.
* `Graph.cell?`, `Graph.state` and `Graph.alive` are what a socket can see.
* `Graph.create`, `Graph.setInput`, `Graph.connect`, `Graph.disconnect`, `Graph.setValue` and
  `Graph.setOutput` are the wiring and the writes. A refused operation has no graph and no log
  records as its result, so it changes nothing.
-/

namespace PullGraph

/-- The record of a node. -/
structure Node where
  logic : Logic
  inputs : Inputs
  outputs : Outputs
  /-- A compute of the node is in progress. -/
  computing : Bool
  /-- How many computes of the node were started. -/
  calls : Nat
  /-- Something holds the node. -/
  alive : Bool
  deriving Inhabited

/-- A node that was just made: nothing connected, nothing computed. -/
def Node.fresh (logic : Logic) (inputs : Inputs) : Node where
  logic := logic
  inputs := inputs
  outputs := .unset logic.outputNames
  computing := false
  calls := 0
  alive := true

/-- All identities in the order of their creation, with their nodes. -/
structure Graph where
  nodes : Array (Option Node)
  deriving Inhabited

namespace Graph

/-- The graph without nodes. -/
def empty : Graph := ⟨#[]⟩

variable (g : Graph)

/-! ## Records -/

/-- The record of an identity that is a node's. -/
def node? (id : NodeId) : Option Node := g.nodes[id.ordinal]?.join

/-- The identity that comes next. -/
def nextId : NodeId := ⟨g.nodes.size⟩

/-- Gives out the next identity, with a record if it is to be a node's. -/
def push (node : Option Node) : Graph := ⟨g.nodes.push node⟩

/-- Changes the record of a node. -/
def update (id : NodeId) (change : Node → Node) : Graph :=
  ⟨g.nodes.modify id.ordinal (·.map change)⟩

theorem node?_push (node : Option Node) (id : NodeId) :
    (g.push node).node? id = if id = g.nextId then node else g.node? id := by
  obtain ⟨k⟩ := id
  simp only [node?, push, nextId, NodeId.mk.injEq]
  rw [Array.getElem?_push]
  split <;> rfl

theorem node?_update (id other : NodeId) (change : Node → Node) :
    (g.update id change).node? other =
      if other = id then (g.node? id).map change else g.node? other := by
  obtain ⟨i⟩ := id
  obtain ⟨k⟩ := other
  simp only [node?, update, NodeId.mk.injEq]
  rw [Array.getElem?_modify]
  by_cases h : k = i
  · subst h
    rcases g.nodes[k]? with _ | _ | node <;> simp
  · simp [h, Ne.symm h]

@[simp] theorem node?_update_self (id : NodeId) (change : Node → Node) :
    (g.update id change).node? id = (g.node? id).map change := by
  simp [node?_update]

theorem node?_update_of_ne {id other : NodeId} (change : Node → Node) (h : other ≠ id) :
    (g.update id change).node? other = g.node? other := by
  simp [node?_update, h]

/-! ## What a socket sees -/

/-- Whether an identity belongs to a living node. -/
def alive (id : NodeId) : Bool := (g.node? id).any (·.alive)

/-- Whether an identity belongs to a living node that is computing. -/
def computing (id : NodeId) : Bool := (g.node? id).any fun node => node.alive && node.computing

/-- The value in the cell of a socket, whether or not its owner is alive. -/
def cell? (s : Socket) : Option Value :=
  (g.node? s.owner).bind fun node => (node.outputs.find? s.name).join

/-- Where a socket is in its life. -/
def state (s : Socket) : SocketState :=
  if (g.cell? s).isSome then .valid
  else if g.computing s.owner then .computing
  else .unrealized

/-- The inputs of a node. -/
def inputs (id : NodeId) : Inputs := ((g.node? id).map (·.inputs)).getD default

/-- The outputs of a node. -/
def outputs (id : NodeId) : Outputs := ((g.node? id).map (·.outputs)).getD default

/-- The name of the kind of a node. -/
def typeName (id : NodeId) : String := ((g.node? id).map (·.logic.typeName)).getD ""

/-- The socket of an output that the node declares. -/
def output (id : NodeId) (name : String) : Except GraphError Socket :=
  if ((g.outputs id).find? name).isSome then .ok ⟨id, name⟩ else .error (.unknownKey name)

/-- The sockets of a node, in the order of declaration. -/
def sockets (id : NodeId) : List Socket := (g.outputs id).names.map (⟨id, ·⟩)

/-- The owner of the socket declares it. -/
def Declares (s : Socket) : Prop := s ∈ g.sockets s.owner

variable {g} in
theorem declares_iff {s : Socket} : g.Declares s ↔ s.name ∈ (g.outputs s.owner).names := by
  obtain ⟨id, name⟩ := s
  simp [Declares, sockets]

variable {g} in
theorem output_eq_ok {id : NodeId} {name : String} {s : Socket} :
    g.output id name = .ok s ↔ s = ⟨id, name⟩ ∧ g.Declares s := by
  rw [declares_iff, ← Outputs.isSome_find?_iff]
  unfold output
  split
  · next h =>
    simp only [Except.ok.injEq]
    exact ⟨fun e => by subst e; exact ⟨rfl, h⟩, fun e => e.1.symm⟩
  · next h =>
    simp only [reduceCtorEq, false_iff]
    rintro ⟨rfl, h'⟩
    exact h h'

/-! ## What depends on which part of a record -/

section Parts

variable {g} {g' : Graph} {id : NodeId}

theorem alive_congr (h : (g'.node? id).map (·.alive) = (g.node? id).map (·.alive)) :
    g'.alive id = g.alive id := by
  simp only [alive]
  revert h
  cases g'.node? id <;> cases g.node? id <;> simp

theorem inputs_congr (h : (g'.node? id).map (·.inputs) = (g.node? id).map (·.inputs)) :
    g'.inputs id = g.inputs id := by
  simp only [inputs, h]

theorem outputs_congr (h : (g'.node? id).map (·.outputs) = (g.node? id).map (·.outputs)) :
    g'.outputs id = g.outputs id := by
  simp only [outputs, h]

theorem cell?_congr {s : Socket}
    (h : (g'.node? s.owner).map (·.outputs) = (g.node? s.owner).map (·.outputs)) :
    g'.cell? s = g.cell? s := by
  simp only [cell?]
  revert h
  cases g'.node? s.owner <;> cases g.node? s.owner <;> simp +contextual

theorem declares_congr {s : Socket} (h : (g'.outputs s.owner).names = (g.outputs s.owner).names) :
    g'.Declares s ↔ g.Declares s := by
  rw [declares_iff, declares_iff, h]

/-- What a change keeps of every record stays as it is. -/
theorem map_node?_update {change : Node → Node} {α : Type} {f : Node → α}
    (h : ∀ node, f (change node) = f node) (other : NodeId) :
    ((g.update id change).node? other).map f = (g.node? other).map f := by
  rw [node?_update]
  split
  · next e => subst e; cases g.node? other <;> simp [h]
  · rfl

end Parts

/-! ## Wiring -/

/-- Adds a node, if the policy accepts the names of its inputs and those of its outputs. A name may
be used on both sides. -/
def create (policy : NamePolicy) (logic : Logic) :
    Except GraphError (NodeId × Graph × List Record) := do
  let inputs ← Inputs.ofNames policy logic.inputNames
  policy.checkAll logic.outputNames
  return (g.nextId, g.push (some (.fresh logic inputs)), [.created g.nextId logic.typeName])

/-- Binds an input to a socket, or leaves it unconnected. Going from one socket to another is worth
a warning. -/
def setInput (id : NodeId) (input : String) (socket : Option Socket) :
    Except GraphError (Graph × List Record) := do
  let old ← (g.inputs id).get input
  let inputs ← (g.inputs id).set g.alive input socket
  let warning :=
    match old, socket with
    | some a, some b => if a = b then [] else [.rebinding id input]
    | _, _ => []
  return (g.update id fun node => { node with inputs := inputs }, warning)

/-- Binds an input to a socket. -/
def connect (id : NodeId) (input : String) (socket : Socket) :
    Except GraphError (Graph × List Record) := do
  let (g', warning) ← g.setInput id input (some socket)
  return (g', warning ++ [.connected socket id input])

/-- Leaves an input unconnected. -/
def disconnect (id : NodeId) (input : String) : Except GraphError (Graph × List Record) :=
  g.setInput id input none

/-! ## Writing -/

/-- Fills the cell of a socket. -/
def fill (s : Socket) (v : Value) : Graph :=
  g.update s.owner fun node => { node with outputs := node.outputs.write s.name v }

/-- A cell that is there holds what it was filled with. -/
theorem cell?_fill_self {s : Socket} (v : Value) {old : Option Value}
    (h : (g.outputs s.owner).find? s.name = some old) : (g.fill s v).cell? s = some v := by
  simp only [outputs] at h
  simp only [cell?, fill, node?_update_self]
  rcases hn : g.node? s.owner with _ | node
  · simp [hn, Outputs.find?, default, instInhabitedOutputs.default] at h
  · simp only [hn, Option.map_some, Option.getD_some] at h
    simp [Outputs.find?_write_self _ v h]

/-- Filling a cell leaves all others alone. -/
theorem cell?_fill_of_ne {s t : Socket} (v : Value) (h : t ≠ s) :
    (g.fill s v).cell? t = g.cell? t := by
  obtain ⟨i, a⟩ := s
  obtain ⟨k, b⟩ := t
  simp only [cell?, fill, node?_update]
  by_cases hk : k = i
  · subst hk
    have hb : b ≠ a := fun e => h (by rw [e])
    cases g.node? k <;> simp [Outputs.find?_write_of_ne _ v hb]
  · simp [hk]

/-- What filling the cell of a declared socket makes of all cells. -/
theorem cell?_fill {s : Socket} (v : Value) (h : g.Declares s) (t : Socket) :
    (g.fill s v).cell? t = if t = s then some v else g.cell? t := by
  split
  · next e =>
    subst e
    have hs := (Outputs.isSome_find?_iff _).mpr (declares_iff.mp h)
    obtain ⟨old, hold⟩ := Option.isSome_iff_exists.mp hs
    exact g.cell?_fill_self v hold
  · next hne => exact g.cell?_fill_of_ne v hne

/-- Writes a socket under the identity `writer`, which has to be that of the owner. -/
def setValue (s : Socket) (writer : NodeId) (v : Value) : Except GraphError Graph :=
  if writer = s.owner then .ok (g.fill s v) else .error (.ownershipViolation s writer)

/-- Writes an output of a node as that node. -/
def setOutput (id : NodeId) (name : String) (v : Value) : Except GraphError Graph := do
  let s ← g.output id name
  g.setValue s id v

variable {g} in
/-- A node may write the sockets that it declares. -/
theorem setOutput_of_declares {s : Socket} (h : g.Declares s) (v : Value) :
    g.setOutput s.owner s.name v = .ok (g.fill s v) := by
  rw [setOutput, output_eq_ok.mpr ⟨rfl, h⟩]
  exact if_pos rfl

/-! ## Computes -/

/-- A compute of the node begins. -/
def enter (id : NodeId) : Graph :=
  g.update id fun node => { node with computing := true, calls := node.calls + 1 }

/-- The compute of the node is over. -/
def leave (id : NodeId) : Graph := g.update id fun node => { node with computing := false }

/-- How many computes of a node were started. -/
def calls (id : NodeId) : Nat := ((g.node? id).map (·.calls)).getD 0

/-! ## What the operations leave alone -/

/-- Gives a node other inputs. -/
def rewire (id : NodeId) (inputs : Inputs) : Graph :=
  g.update id fun node => { node with inputs := inputs }

variable {g} in
theorem calls_congr {g' : Graph} {id : NodeId}
    (h : (g'.node? id).map (·.calls) = (g.node? id).map (·.calls)) : g'.calls id = g.calls id := by
  simp only [calls, h]

@[simp] theorem node?_nextId : g.node? g.nextId = none := by simp [node?, nextId]

theorem calls_enter_self {id : NodeId} (h : g.alive id = true) :
    (g.enter id).calls id = g.calls id + 1 := by
  simp only [alive] at h
  simp only [calls, enter, node?_update_self]
  cases hn : g.node? id with
  | none => simp [hn] at h
  | some node => rfl

theorem calls_enter_of_ne {id other : NodeId} (h : other ≠ id) :
    (g.enter id).calls other = g.calls other := by
  simp only [calls, enter, node?_update_of_ne _ _ h]

@[simp] theorem alive_enter (id other : NodeId) : (g.enter id).alive other = g.alive other := by
  unfold enter
  exact alive_congr (map_node?_update (fun _ => by rfl) other)

@[simp] theorem inputs_enter (id other : NodeId) : (g.enter id).inputs other = g.inputs other := by
  unfold enter
  exact inputs_congr (map_node?_update (fun _ => by rfl) other)

@[simp] theorem outputs_enter (id other : NodeId) : (g.enter id).outputs other = g.outputs other := by
  unfold enter
  exact outputs_congr (map_node?_update (fun _ => by rfl) other)

@[simp] theorem cell?_enter (id : NodeId) (s : Socket) : (g.enter id).cell? s = g.cell? s := by
  unfold enter
  exact cell?_congr (map_node?_update (fun _ => by rfl) s.owner)

@[simp] theorem alive_leave (id other : NodeId) : (g.leave id).alive other = g.alive other := by
  unfold leave
  exact alive_congr (map_node?_update (fun _ => by rfl) other)

@[simp] theorem inputs_leave (id other : NodeId) : (g.leave id).inputs other = g.inputs other := by
  unfold leave
  exact inputs_congr (map_node?_update (fun _ => by rfl) other)

@[simp] theorem outputs_leave (id other : NodeId) : (g.leave id).outputs other = g.outputs other := by
  unfold leave
  exact outputs_congr (map_node?_update (fun _ => by rfl) other)

@[simp] theorem cell?_leave (id : NodeId) (s : Socket) : (g.leave id).cell? s = g.cell? s := by
  unfold leave
  exact cell?_congr (map_node?_update (fun _ => by rfl) s.owner)

@[simp] theorem calls_leave (id other : NodeId) : (g.leave id).calls other = g.calls other := by
  unfold leave
  exact calls_congr (map_node?_update (fun _ => by rfl) other)

@[simp] theorem alive_fill (s : Socket) (v : Value) (id : NodeId) :
    (g.fill s v).alive id = g.alive id := by
  unfold fill
  exact alive_congr (map_node?_update (fun _ => by rfl) id)

@[simp] theorem inputs_fill (s : Socket) (v : Value) (id : NodeId) :
    (g.fill s v).inputs id = g.inputs id := by
  unfold fill
  exact inputs_congr (map_node?_update (fun _ => by rfl) id)

@[simp] theorem calls_fill (s : Socket) (v : Value) (id : NodeId) :
    (g.fill s v).calls id = g.calls id := by
  unfold fill
  exact calls_congr (map_node?_update (fun _ => by rfl) id)

@[simp] theorem alive_rewire (id other : NodeId) (inputs : Inputs) :
    (g.rewire id inputs).alive other = g.alive other := by
  unfold rewire
  exact alive_congr (map_node?_update (fun _ => by rfl) other)

@[simp] theorem outputs_rewire (id other : NodeId) (inputs : Inputs) :
    (g.rewire id inputs).outputs other = g.outputs other := by
  unfold rewire
  exact outputs_congr (map_node?_update (fun _ => by rfl) other)

@[simp] theorem cell?_rewire (id : NodeId) (inputs : Inputs) (s : Socket) :
    (g.rewire id inputs).cell? s = g.cell? s := by
  unfold rewire
  exact cell?_congr (map_node?_update (fun _ => by rfl) s.owner)

@[simp] theorem calls_rewire (id other : NodeId) (inputs : Inputs) :
    (g.rewire id inputs).calls other = g.calls other := by
  unfold rewire
  exact calls_congr (map_node?_update (fun _ => by rfl) other)

theorem inputs_rewire (id other : NodeId) (inputs : Inputs) :
    (g.rewire id inputs).inputs other = inputs ∧ other = id ∨
      (g.rewire id inputs).inputs other = g.inputs other := by
  simp only [Graph.inputs, rewire, node?_update]
  split
  · next e =>
    subst e
    cases g.node? other with
    | none => exact .inr rfl
    | some node => exact .inl ⟨rfl, rfl⟩
  · exact .inr rfl

@[simp] theorem names_outputs_fill (s : Socket) (v : Value) (id : NodeId) :
    ((g.fill s v).outputs id).names = (g.outputs id).names := by
  simp only [outputs, fill, node?_update]
  split
  · next e => subst e; cases g.node? s.owner <;> simp
  · rfl

end Graph

end PullGraph

import PullGraph.Describe
import PullGraph.Handles
import PullGraph.Reply
import PullGraph.Validation
import PullGraph.Value.Sum
import PullGraph.Value.Text

/-!
# One step

What a step does, up to the point where a compute would have to run.

* `Scope` is what a step sees besides the workspace: the computing node, if there is one, the number
  of its call, and the registers. `Scope.node`, `Scope.socket` and their like resolve references.
* `Demand.target` is the socket that a read is about, `Query.answer` the reply to a look, and
  `Edit.apply` the workspace after a change.
* `Action.begin` puts them together: a step is over with a reply, or it demands a socket.

Sockets are resolved before the node of a step and before anything else happens.
-/

namespace PullGraph

/-- Where a step runs: in a compute of `self`, or at the top level. -/
structure Scope where
  self : Option NodeId
  call : Nat
  registers : Table Value

namespace Scope

variable (scope : Scope) (w : Workspace)

/-- The node that is computing. -/
def current : Except StepError NodeId :=
  match scope.self with
  | some id => .ok id
  | none => .error .notComputing

/-- The node that a reference stands for. -/
def node : NodeRef → Except StepError NodeId
  | .self => scope.current
  | .label name => w.handles.nodes.find name

/-- The identity that a write is made with. -/
def writer : WriterRef → Except StepError NodeId
  | .self => scope.current
  | .label name => w.handles.ids.find name

/-- The socket that a reference stands for. -/
def socket : SocketRef → Except StepError Socket
  | .label name => w.handles.sockets.find name
  | .output node name => do
    let id ← scope.node w node
    StepError.ofGraph (w.graph.output id name)

/-- The socket of an optional reference. -/
def socket? : Option SocketRef → Except StepError (Option Socket)
  | some s => some <$> scope.socket w s
  | none => .ok none

/-- The inputs that a reference stands for. -/
def inputs : InputsRef → Except StepError Inputs
  | .label name => w.handles.inputs.find name
  | .ofNode node => do
    let id ← scope.node w node
    return w.graph.inputs id

/-- The value of a register, null if it is unset. -/
def register (name : String) : Value := (scope.registers.get? name).getD .null

/-- The value of a source. -/
def source : Source → Value
  | .constant v => v
  | .register name => scope.register name
  | .registers names => .array (names.map scope.register)
  | .callNumber => .ofInt scope.call

end Scope

/-- The socket that a read is about and the node that its step holds on to. An optional input
without a binding is about no socket. -/
def Demand.target (scope : Scope) (w : Workspace) :
    Demand → Except StepError (Option Socket × Option NodeId)
  | .output node name => do
    let id ← scope.node w node
    let s ← StepError.ofGraph (w.graph.output id name)
    return (some s, some id)
  | .input node name => do
    let id ← scope.node w node
    let s ← StepError.ofGraph ((w.graph.inputs id).get name)
    match s with
    | some s => return (some s, some id)
    | none => throw (.graph (.unconnectedInput id name))
  | .optionalInput node name => do
    let id ← scope.node w node
    let s ← StepError.ofGraph ((w.graph.inputs id).get name)
    return (s, some id)
  | .socket s => do
    let s ← scope.socket w s
    return (some s, none)

/-- The description of a subject. -/
def Subject.describe (scope : Scope) (w : Workspace) : Subject → Except StepError String
  | .node n => w.graph.describeNode <$> scope.node w n
  | .outputs n => w.graph.describeOutputs <$> scope.node w n
  | .socket s => w.graph.describeSocket <$> scope.socket w s
  | .inputs i => w.graph.describeInputs <$> scope.inputs w i

/-- The reply to a look, and what it logs. -/
def Query.answer (scope : Scope) (w : Workspace) :
    Query → Except StepError (Reply × List Record)
  | .logic node => do
    let id ← scope.node w node
    return (.logic (w.graph.logic id), [])
  | .inspect node => do
    let id ← scope.node w node
    return (.node (w.graph.viewNode id), [])
  | .validate node summary => do
    let id ← scope.node w node
    let report := w.graph.validate id
    return (.report report, if summary then report.records else [])
  | .socket s => do
    let s ← scope.socket w s
    return (.socket (w.graph.viewSocket s), [])
  | .sameSocket a b => do
    let a ← scope.socket w a
    let b ← scope.socket w b
    return (.flag (a = b), [])
  | .inputs i => do
    let inputs ← scope.inputs w i
    return (.inputs inputs, [])
  | .binding i name => do
    let inputs ← scope.inputs w i
    let s ← StepError.ofGraph (inputs.get name)
    return ((s.map Reply.binding).getD .nothing, [])
  | .feeder i name => do
    let inputs ← scope.inputs w i
    let id ← StepError.ofGraph (inputs.feeder name)
    return ((id.map Reply.id).getD .nothing, [])
  | .check policy name => do
    StepError.ofGraph (policy.check name)
    return (.nothing, [])
  | .checkAll policy names => do
    StepError.ofGraph (policy.checkAll names)
    return (.nothing, [])
  | .describe subject => do
    let text ← subject.describe scope w
    return (.text text, [])

/-- A dynamically typed value that was made from an optional socket. -/
def DynamicType.make : DynamicType → Option Socket → Dynamic
  | .socket, some s => .socket s
  | .socket, none => .other
  | .optional, s => .optional s
  | .other, _ => .other

/-- The workspace after a change, with the reply and the log records. -/
def Edit.apply (scope : Scope) (w : Workspace) :
    Edit → Except StepError (Reply × Workspace × List Record)
  | .create label policy logic => do
    let (id, g, records) ← StepError.ofGraph (w.graph.create policy logic)
    return (.id id, (w.setGraph g).keepNode label id, records)
  | .freshId label =>
    let id := w.graph.nextId
    return (.id id, (w.setGraph (w.graph.push none)).keepId label id, [])
  | .copyNode node label => do
    let id ← scope.node w node
    return (.id id, w.keepNode label id, [])
  | .dropNode label => return (.flag (w.handles.nodes.get? label).isSome, w.dropNode label, [])
  | .setOutput node name source => do
    let id ← scope.node w node
    let g ← StepError.ofGraph (w.graph.setOutput id name (scope.source source))
    return (.nothing, w.setGraph g, [])
  | .setSum node name left right => do
    let id ← scope.node w node
    let a := scope.register left
    let b := scope.register right
    match a.add? b with
    | some sum =>
      let g ← StepError.ofGraph (w.graph.setOutput id name sum)
      return (.nothing, w.setGraph g, [])
    | none =>
      throw (.graph (.computeFailed id ("cannot add " ++ a.text ++ " and " ++ b.text)))
  | .connect node name s => do
    let s ← scope.socket w s
    let id ← scope.node w node
    let (g, records) ← StepError.ofGraph (w.graph.connect id name s)
    return (.nothing, w.setGraph g, records)
  | .setInput node name s => do
    let s ← scope.socket? w s
    let id ← scope.node w node
    let (g, records) ← StepError.ofGraph (w.graph.setInput id name s)
    return (.nothing, w.setGraph g, records)
  | .disconnect node name => do
    let id ← scope.node w node
    let (g, records) ← StepError.ofGraph (w.graph.disconnect id name)
    return (.nothing, w.setGraph g, records)
  | .keepOutput node name label => do
    let id ← scope.node w node
    let s ← StepError.ofGraph (w.graph.output id name)
    return (.socket (w.graph.viewSocket s), w.keepSocket label s, [])
  | .dropSocket label =>
    return (.flag (w.handles.sockets.get? label).isSome, w.dropSocket label, [])
  | .setValue s writer source => do
    let s ← scope.socket w s
    let writer ← scope.writer w writer
    let g ← StepError.ofGraph (w.graph.setValue s writer (scope.source source))
    return (.nothing, w.setGraph g, [])
  | .keepOwner s label => do
    let s ← scope.socket w s
    if w.graph.alive s.owner then return (.id s.owner, w.keepNode label s.owner, [])
    else return (.nothing, w, [])
  | .newInputs label policy names => do
    let inputs ← StepError.ofGraph (Inputs.ofNames policy names)
    return (.inputs inputs, w.keepInputs label inputs, [])
  | .copyInputs i label => do
    let inputs ← scope.inputs w i
    return (.inputs inputs, w.keepInputs label inputs, [])
  | .dropInputs label =>
    return (.flag (w.handles.inputs.get? label).isSome, w.dropInputs label, [])
  | .keepFeeder i name label => do
    let inputs ← scope.inputs w i
    let id ← StepError.ofGraph (inputs.feeder name)
    match id with
    | some id => return (.id id, w.keepNode label id, [])
    | none => return (.nothing, w, [])
  | .bindInput label name s => do
    let s ← scope.socket? w s
    let inputs ← w.handles.inputs.find label
    let inputs ← StepError.ofGraph (inputs.set w.graph.alive name s)
    return (.nothing, w.keepInputs label inputs, [])
  | .bindDynamic label name type s => do
    let s ← scope.socket? w s
    let inputs ← w.handles.inputs.find label
    let inputs ← StepError.ofGraph (inputs.setAny w.graph.alive name (type.make s))
    return (.nothing, w.keepInputs label inputs, [])

/-- How far a step gets by itself. -/
inductive Progress where
  /-- The step is over. -/
  | done (reply : Reply) (w : Workspace) (records : List Record)
  /-- The step reads a socket, and holds on to a node until it has the value. -/
  | demand (s : Socket) (holding : Option NodeId)

/-- A step up to the point where it needs the value of a socket. -/
def Action.begin (scope : Scope) (w : Workspace) : Action → Except StepError Progress
  | .demand d _ => do
    match ← d.target scope w with
    | (some s, holding) => return .demand s holding
    | (none, _) => return .done .nothing w []
  | .query q => do
    let (reply, records) ← q.answer scope w
    return .done reply w records
  | .edit e => do
    let (reply, w, records) ← e.apply scope w
    return .done reply w records
  | .fail message => do
    let id ← scope.current
    throw (.graph (.computeFailed id message))

end PullGraph

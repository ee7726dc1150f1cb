import PullGraph.Lifetime
import PullGraph.Step

/-!
# The machine that runs steps

A machine has a workspace and a stack of computes in progress above the program at the top level.
It moves in small moves: one step begins, a value arrives at a step that waits for it, a branch is
taken, or a compute is over. After every move the nodes that nothing holds die.

* `Task` is a list of steps under way. The step at its head may be waiting for a socket; it then
  holds on to a node.
* `Frame` is a compute in progress: the task, and the socket that the compute was started for.
* `Machine.demand` is the read of a socket. A value is served from the cell. An unset cell starts
  the compute of its owner, if that is alive and not computing already.
* `Machine.move` is one move, and `Machine.run` moves until the top level has nothing left to do.
* `Machine.exec` runs one step of the program and gives its `Entry`: the result, and the events that
  happened meanwhile.

The trace tells of every compute and every step. An entry leaves out the steps inside computes of
built-in kinds, which are not steps of any script.

Scripts may go on for ever by making nodes that they then read, so a run has a limit on its moves;
reaching the limit is an outcome of its own and not an error of the program.
-/

namespace PullGraph

/-- What a run tells. -/
inductive Event where
  | log (record : Record)
  /-- A compute of a node begins, the one with the given number. -/
  | called (node : NodeId) (call : Nat)
  /-- A step has finished, in a compute of a node or at the top level. -/
  | did (node : Option NodeId) (action : Action) (result : Result)

/-- Steps under way. -/
structure Task where
  /-- The number of the call, 0 at the top level. -/
  call : Nat
  registers : Table Value
  todo : List Instr
  /-- The node that the step at the head holds on to while it waits. -/
  holding : Option NodeId

instance : Inhabited Task := ⟨⟨0, .empty, [], none⟩⟩

/-- A compute in progress. -/
structure Frame where
  /-- The socket whose read started the compute; its owner is the node that computes. -/
  demanded : Socket
  task : Task

/-- The node that computes. -/
def Frame.node (f : Frame) : NodeId := f.demanded.owner

/-- What the next move has to deal with. -/
inductive Control where
  | running
  /-- The read that the current step waits for has this outcome. -/
  | returned (outcome : Except GraphError Value)

/-- A program at work on a graph. -/
structure Machine where
  workspace : Workspace
  /-- The top level. -/
  base : Task
  /-- The computes in progress, the innermost first. -/
  frames : List Frame
  control : Control
  /-- What happened, the latest first. -/
  trace : List Event

namespace Machine

/-- A machine with an empty workspace and nothing to do. -/
def start : Machine := ⟨.empty, default, [], .running, []⟩

instance : Inhabited Machine := ⟨start⟩

variable (m : Machine)

/-! ## Parts -/

/-- The graph of the workspace. -/
def graph : Graph := m.workspace.graph

/-- Replaces the graph of the workspace. -/
def setGraph (g : Graph) : Machine := { m with workspace := m.workspace.setGraph g }

/-- The innermost task. -/
def task : Task :=
  match m.frames with
  | f :: _ => f.task
  | [] => m.base

/-- Changes the innermost task. -/
def setTask (t : Task) : Machine :=
  match m.frames with
  | f :: rest => { m with frames := { f with task := t } :: rest }
  | [] => { m with base := t }

/-- The innermost node that is computing. -/
def current : Option NodeId := m.frames.head?.map (·.node)

/-- What the step at the head of the innermost task sees. -/
def scope : Scope := ⟨m.current, m.task.call, m.task.registers⟩

/-- The nodes that the computes in progress and the waiting steps hold. -/
def holds : List NodeId :=
  m.base.holding.toList ++ m.frames.flatMap fun f => f.node :: f.task.holding.toList

/-- The sockets that the computes in progress were started for, the innermost first. -/
def wanted : List Socket := m.frames.map (·.demanded)

/-- The nodes that compute, the innermost first. -/
def stack : List NodeId := m.wanted.map (·.owner)

/-- Adds an event to the trace. -/
def tell (e : Event) : Machine := { m with trace := e :: m.trace }

/-- Adds log records to the trace, the first one first. -/
def tellAll (records : List Record) : Machine :=
  records.foldl (fun m record => m.tell (.log record)) m

/-- Nothing is left to do at the top level. -/
def idle : Bool :=
  match m.control, m.frames, m.base.todo with
  | .running, [], [] => true
  | _, _, _ => false

/-! ## Reads -/

/-- A compute of the owner of a socket begins. -/
def enter (s : Socket) : Machine :=
  let id := s.owner
  let logic := m.graph.logic id
  let call := m.graph.calls id + 1
  let m := (m.setGraph (m.graph.enter id)).tell (.log (.computing id logic.typeName))
  { m.tell (.called id call) with
    frames := ⟨s, ⟨call, .empty, logic.program call, none⟩⟩ :: m.frames
    control := .running }

/-- The read of a socket: it is answered at once, or it starts a compute. -/
def demand (s : Socket) : Machine :=
  match m.graph.cell? s with
  | some v => { m.tell (.log (.cacheHit s)) with control := .returned (.ok v) }
  | none =>
    if !m.graph.alive s.owner then { m with control := .returned (.error (.ownerDropped s.name)) }
    else if m.graph.computing s.owner then
      { m.tell (.log (.demandedWhileComputing s)) with
        control := .returned (.error (.cycleDetected s)) }
    else m.enter s

/-! ## Ends -/

/-- The innermost compute is over; the read that started it gets the outcome. -/
def leave (f : Frame) (rest : List Frame) (outcome : Except GraphError Value) : Machine :=
  { m.setGraph (m.graph.leave f.node) with frames := rest, control := .returned outcome }

/-- The innermost compute has no steps left. The socket that it was started for has to be set. -/
def complete (f : Frame) (rest : List Frame) : Machine :=
  let type := m.graph.typeName f.node
  let m := m.tell (.log (.finished f.node type))
  match m.graph.cell? f.demanded with
  | some v => m.leave f rest (.ok v)
  | none =>
    (m.tell (.log (.leftUnset f.demanded type))).leave f rest
      (.error (.invariantViolation f.demanded))

/-- The innermost task goes on with its next step. -/
def next : Machine :=
  { m.setTask { m.task with todo := m.task.todo.tail, holding := none } with control := .running }

/-- A step has its result. A refusal ends the compute that the step is part of, unless the step was
only an attempt. -/
def conclude (action : Action) (attempt : Bool) (result : Result) : Machine :=
  let m := m.tell (.did m.current action result)
  match result, attempt, m.frames with
  | .error (.graph e), false, f :: rest => m.leave f rest (.error e)
  | _, _, _ => m.next

/-! ## Moves -/

/-- A step begins. -/
def perform (action : Action) (attempt : Bool) : Machine :=
  match action.begin m.scope m.workspace with
  | .error e => m.conclude action attempt (.error e)
  | .ok (.done reply w records) =>
    ({ m with workspace := w }.tellAll records).conclude action attempt (.ok reply)
  | .ok (.demand s holding) => (m.setTask { m.task with holding := holding }).demand s

/-- The value that a read yields is put into its register. -/
def keep (action : Action) (v : Value) : Machine :=
  match action with
  | .demand _ (some name) =>
    m.setTask { m.task with registers := m.task.registers.insert name v }
  | _ => m

/-- The outcome of a read arrives at the step that waits for it. -/
def resume (outcome : Except GraphError Value) : Machine :=
  match m.task.todo with
  | .act action attempt :: _ =>
    match outcome with
    | .ok v => (m.keep action v).conclude action attempt (.ok (.value v))
    | .error e => m.conclude action attempt (.error (.graph e))
  | _ => m.next

/-- The innermost task takes its next step, or is over. -/
def advance : Machine :=
  match m.task.todo with
  | .act action attempt :: _ => m.perform action attempt
  | .branch register is yes no :: rest =>
    let chosen := if m.scope.register register == is then yes else no
    m.setTask { m.task with todo := chosen ++ rest }
  | [] =>
    match m.frames with
    | f :: rest => m.complete f rest
    | [] => m

/-- Lets nodes die that nothing holds. -/
def settle : Machine := { m with workspace := m.workspace.release m.holds }

/-- One move. -/
def move : Machine :=
  match m.control with
  | .returned outcome => (m.resume outcome).settle
  | .running => m.advance.settle

/-! ## Runs -/

/-- Moves until nothing is left to do, but at most as often as the limit says. -/
def run : Nat → Machine → Option Machine
  | 0, _ => none
  | limit + 1, m => if m.idle then some m else run limit m.move

/-- Gives the top level a step to do. -/
def load (action : Action) : Machine :=
  { m with base := { m.base with todo := [.act action true] }, trace := [] }

end Machine

/-- Whether an event is part of an entry: computes and their steps are if the node has a script. -/
def Graph.reports (g : Graph) : Event → Bool
  | .log _ => true
  | .called node _ => (g.logic node).isScript
  | .did (some node) _ _ => (g.logic node).isScript
  | .did none _ _ => true

/-- What a step of the program came to, and the events on the way, the first one first. -/
structure Entry where
  result : Result
  events : List Event

namespace Entry

/-- The entry that the trace of one step amounts to; the last event is the end of the step. -/
def ofTrace? (g : Graph) : List Event → Option Entry
  | .did none _ result :: earlier => some ⟨result, earlier.reverse.filter g.reports⟩
  | _ => none

/-- An entry without the log records. -/
def quiet (e : Entry) : Entry :=
  { e with
    events := e.events.filter fun
      | .log _ => false
      | _ => true }

end Entry

namespace Machine

/-- Runs one step of the program, within a limit on the moves. -/
def exec (limit : Nat) (action : Action) (m : Machine) : Option (Entry × Machine) := do
  let m ← run limit (m.load action)
  let entry ← Entry.ofTrace? m.graph m.trace
  return (entry, m)

/-- Runs the steps of a program one after the other; a step that fails does not stop it. -/
def execAll (limit : Nat) : List Action → Machine → Option (List Entry × Machine)
  | [], m => some ([], m)
  | action :: actions, m => do
    let (entry, m) ← m.exec limit action
    let (entries, m) ← m.execAll limit actions
    return (entry :: entries, m)

end Machine

end PullGraph

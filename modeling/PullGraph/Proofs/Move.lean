import PullGraph.Machine
import PullGraph.Proofs.Effect

/-!
# What a move comes to

* `Machine.Demands`: the step at the head is a read of a socket. `Graph.answer?` is the answer that
  needs no compute, and `Machine.write?` the write that the next move makes.
* `Turn`: what a move does before nodes die: a step ends, a read is answered, a compute begins or a
  compute ends. `Machine.exists_turn` says that a move does nothing else.
* `Turn.wanted_cases`, `Turn.workspace_cases`: what a turn makes of the computes in progress and of
  the workspace.
-/

namespace PullGraph

/-! ## Answers and writes -/

/-- The answer to the read of a socket, unless a compute has to give it. -/
def Graph.answer? (g : Graph) (s : Socket) : Option (Except GraphError Value) :=
  match g.cell? s with
  | some v => some (.ok v)
  | none =>
    if !g.alive s.owner then some (.error (.ownerDropped s.name))
    else if g.computing s.owner then some (.error (.cycleDetected s))
    else none

theorem Graph.answer?_eq_none_iff {g : Graph} {s : Socket} :
    g.answer? s = none ↔
      g.cell? s = none ∧ g.alive s.owner = true ∧ g.computing s.owner = false := by
  unfold answer?
  cases g.cell? s <;> cases g.alive s.owner <;> cases g.computing s.owner <;> simp

/-- An answer is right about the cell. -/
theorem Graph.cell?_of_answer? {g : Graph} {s : Socket} {v : Value}
    (h : g.answer? s = some (.ok v)) : g.cell? s = some v := by
  revert h
  unfold answer?
  cases g.cell? s <;> cases g.alive s.owner <;> cases g.computing s.owner <;> simp

namespace Machine

variable (m : Machine)

/-- The step at the head of the innermost task begins as a read of the socket. -/
def Demands (s : Socket) (holding : Option NodeId) : Prop :=
  m.control = .running ∧ ∃ d into attempt rest,
    m.task.todo = .act (.demand d into) attempt :: rest ∧
      d.target m.scope m.workspace = .ok (some s, holding)

/-- The write that the next move makes. -/
def write? : Option Write :=
  match m.control, m.task.todo with
  | .running, .act (.edit e) _ :: _ => e.write? m.scope m.workspace
  | _, _ => none

/-! ## The innermost task -/

section Task

variable (t u : Task)

@[simp] theorem task_setTask : (m.setTask t).task = t := by
  obtain ⟨w, base, frames, control, trace⟩ := m
  cases frames <;> rfl

@[simp] theorem workspace_setTask : (m.setTask t).workspace = m.workspace := by
  obtain ⟨w, base, frames, control, trace⟩ := m
  cases frames <;> rfl

@[simp] theorem trace_setTask : (m.setTask t).trace = m.trace := by
  obtain ⟨w, base, frames, control, trace⟩ := m
  cases frames <;> rfl

@[simp] theorem graph_setTask : (m.setTask t).graph = m.graph := by simp [graph]

@[simp] theorem wanted_setTask : (m.setTask t).wanted = m.wanted := by
  obtain ⟨w, base, frames, control, trace⟩ := m
  cases frames <;> rfl

@[simp] theorem stack_setTask : (m.setTask t).stack = m.stack := by simp [stack]

@[simp] theorem setTask_setTask : (m.setTask t).setTask u = m.setTask u := by
  obtain ⟨w, base, frames, control, trace⟩ := m
  cases frames <;> rfl

theorem frames_setTask :
    (m.setTask t).frames = m.frames.modifyHead fun f => { f with task := t } := by
  obtain ⟨w, base, frames, control, trace⟩ := m
  cases frames <;> rfl

@[simp] theorem length_frames_setTask : (m.setTask t).frames.length = m.frames.length := by
  rw [frames_setTask, List.length_modifyHead]

@[simp] theorem setTask_task : m.setTask m.task = m := by
  obtain ⟨w, base, frames, control, trace⟩ := m
  cases frames <;> rfl

theorem setTask_with (w : Workspace) (c : Control) (trace : List Event) :
    { m with workspace := w, control := c, trace := trace : Machine }.setTask t =
      { m.setTask t with workspace := w, control := c, trace := trace } := by
  obtain ⟨w₀, base, frames, control, trace₀⟩ := m
  cases frames <;> rfl

theorem setTask_of_running (h : m.control = .running) :
    m.setTask t = { m.setTask t with control := .running } := by
  obtain ⟨w, base, frames, control, trace⟩ := m
  cases h
  cases frames <;> rfl

end Task

theorem workspace_enter (s : Socket) :
    (m.enter s).workspace = m.workspace.setGraph (m.graph.enter s.owner) := rfl

theorem wanted_enter (s : Socket) : (m.enter s).wanted = s :: m.wanted := rfl

variable {m} in
theorem stack_of_wanted {m' : Machine} (h : m'.wanted = m.wanted) : m'.stack = m.stack := by
  rw [stack, h, stack]

variable {m} in
theorem stack_of_wanted_cons {m' : Machine} {s : Socket} (h : m'.wanted = s :: m.wanted) :
    m'.stack = s.owner :: m.stack := by
  rw [stack, h, stack, List.map_cons]

@[simp] theorem graph_tell (e : Event) : (m.tell e).graph = m.graph := rfl

theorem tellAll_eq (records : List Record) :
    m.tellAll records = { m with trace := (records.map .log).reverse ++ m.trace } := by
  induction records generalizing m with
  | nil => rfl
  | cons record rest ih =>
    rw [show m.tellAll (record :: rest) = (m.tell (.log record)).tellAll rest from rfl, ih]
    simp [tell]

section Frames

variable {m} {f : Frame} {rest : List Frame}

theorem task_of_nil (h : m.frames = []) : m.task = m.base := by
  simp only [task, h]

theorem task_of_cons (h : m.frames = f :: rest) : m.task = f.task := by simp only [task, h]

theorem scope_of_nil (h : m.frames = []) : m.scope = ⟨none, m.base.call, m.base.registers⟩ := by
  rw [scope, current, task_of_nil h, h]
  rfl

theorem scope_of_cons (h : m.frames = f :: rest) :
    m.scope = ⟨some f.node, f.task.call, f.task.registers⟩ := by
  rw [scope, current, task_of_cons h, h]
  rfl

theorem stack_of_cons (h : m.frames = f :: rest) : m.stack = f.node :: rest.map (·.node) := by
  simp only [stack, wanted, h, List.map_cons, List.map_map]
  rfl

end Frames

variable {m} in
theorem idle_cases (h : m.idle = true) : m.control = .running ∧ m.frames = [] ∧ m.base.todo = [] := by
  unfold idle at h
  split at h
  · next hc hf ht => exact ⟨hc, hf, ht⟩
  · cases h

variable {m} in
theorem idle_of_frames_ne_nil (h : m.frames ≠ []) : m.idle = false := by
  cases hi : m.idle with
  | false => rfl
  | true => exact absurd (idle_cases hi).2.1 h

variable {m} in
theorem Demands.idle_eq {s : Socket} {holding : Option NodeId} (h : m.Demands s holding) :
    m.idle = false := by
  obtain ⟨-, d, into, attempt, rest, ht, -⟩ := h
  cases hi : m.idle with
  | false => rfl
  | true =>
    obtain ⟨-, hf, hb⟩ := idle_cases hi
    rw [task_of_nil hf, hb] at ht
    cases ht

variable {m} in
/-- Where nothing is left to do, a move does nothing but let nodes die. -/
theorem move_of_idle (h : m.idle = true) : m.move = m.settle := by
  obtain ⟨hc, hf, ht⟩ := idle_cases h
  simp only [move, hc, advance, task_of_nil hf, ht, hf]

variable {m} in
theorem write?_of_idle (h : m.idle = true) : m.write? = none := by
  obtain ⟨-, hf, ht⟩ := idle_cases h
  simp [write?, task_of_nil hf, ht]

variable {m} in
theorem write?_of_returned {outcome : Except GraphError Value} (h : m.control = .returned outcome) :
    m.write? = none := by
  simp [write?, h]

variable {m} in
theorem write?_of_demands {s : Socket} {holding : Option NodeId} (h : m.Demands s holding) :
    m.write? = none := by
  obtain ⟨-, d, into, attempt, rest, ht, -⟩ := h
  unfold write?
  split
  · next hc => rw [ht] at hc; cases hc
  · rfl

/-! ## Turns -/

/-- What a move does before nodes die. -/
inductive Turn : Machine → Prop
  /-- Nothing is left to do. -/
  | rest : m.idle = true → Turn m
  /-- A step ends, or a branch is taken, and the task goes on. -/
  | step {task : Task} {w : Workspace} {trace : List Event} :
      ((m.control = .running → m.task.holding = none) → task.holding = none) →
      Effect m.scope m.workspace m.write? w →
      Turn { m.setTask task with workspace := w, control := .running, trace := trace }
  /-- A read has its answer. -/
  | answer {s : Socket} {holding : Option NodeId} {outcome : Except GraphError Value}
      {trace : List Event} : m.Demands s holding → m.graph.answer? s = some outcome →
      Turn { m.setTask { m.task with holding := holding } with
        control := .returned outcome, trace := trace }
  /-- A read starts a compute. -/
  | enter {s : Socket} {holding : Option NodeId} : m.Demands s holding →
      m.graph.answer? s = none → Turn ((m.setTask { m.task with holding := holding }).enter s)
  /-- The innermost compute is over. -/
  | leave {f : Frame} {rest : List Frame} {outcome : Except GraphError Value}
      {trace : List Event} : m.frames = f :: rest →
      (∀ write, m.write? = some write → ¬ write.Own) →
      (∀ v, outcome = .ok v → m.control = .running ∧ m.task.todo = [] ∧
        m.graph.cell? f.demanded = some v) →
      Turn { m with
        workspace := m.workspace.setGraph (m.graph.leave f.node), frames := rest,
        control := .returned outcome, trace := trace }

variable {m} {m' : Machine}

/-- A turn leaves the computes in progress as they are, starts one, or ends the innermost one. -/
theorem Turn.wanted_cases (h : Turn m m') :
    m'.wanted = m.wanted ∨ (∃ s, m'.wanted = s :: m.wanted ∧ m'.control = .running) ∨
      ∃ s outcome, m.wanted = s :: m'.wanted ∧ m'.control = .returned outcome ∧
        ∀ v, outcome = .ok v →
          m.control = .running ∧ m.task.todo = [] ∧ m.graph.cell? s = some v := by
  cases h with
  | rest => exact .inl rfl
  | @step task => exact .inl (m.wanted_setTask task)
  | @answer _ holding => exact .inl (m.wanted_setTask { m.task with holding := holding })
  | @enter s holding =>
    exact .inr (.inl ⟨s, by rw [wanted_enter, wanted_setTask], rfl⟩)
  | @leave f rest outcome _ hf _ hv =>
    exact .inr (.inr ⟨f.demanded, outcome, by simp [wanted, hf], rfl, hv⟩)

/-- A turn has the effect of an edit on the workspace, or marks the beginning or the end of a
compute. -/
theorem Turn.workspace_cases (h : Turn m m') :
    (m'.wanted = m.wanted ∧ Effect m.scope m.workspace m.write? m'.workspace) ∨
    (∃ s holding, m.Demands s holding ∧ m.graph.answer? s = none ∧ m'.wanted = s :: m.wanted ∧
      m'.workspace = m.workspace.setGraph (m.graph.enter s.owner)) ∨
    (∃ s, m.wanted = s :: m'.wanted ∧
      m'.workspace = m.workspace.setGraph (m.graph.leave s.owner) ∧
      ∀ write, m.write? = some write → ¬ write.Own) := by
  cases h with
  | rest hi => exact .inl ⟨rfl, write?_of_idle hi ▸ .nothing⟩
  | @step task w trace _ he => exact .inl ⟨m.wanted_setTask task, he⟩
  | @answer _ holding _ _ hd =>
    refine .inl ⟨m.wanted_setTask { m.task with holding := holding }, ?_⟩
    rw [write?_of_demands hd]
    simpa using .nothing
  | @enter s holding hd ha =>
    refine .inr (.inl ⟨s, holding, hd, ha, ?_, ?_⟩)
    · rw [wanted_enter, wanted_setTask]
    · rw [workspace_enter, workspace_setTask, graph_setTask]
  | @leave f rest _ _ hf hw =>
    exact .inr (.inr ⟨f.demanded, by simp [wanted, hf], rfl, hw⟩)

/-- A step that succeeds is over, and the task goes on. -/
theorem conclude_ok (action : Action) (attempt : Bool) (reply : Reply) :
    m.conclude action attempt (.ok reply) =
      { m.setTask { m.task with todo := m.task.todo.tail, holding := none } with
        control := .running, trace := .did m.current action (.ok reply) :: m.trace } := by
  obtain ⟨w, base, frames, control, trace⟩ := m
  cases frames <;> rfl

/-- A step that is refused is over, and the task goes on unless it was a step of a compute and more
than an attempt. -/
theorem conclude_error (action : Action) (attempt : Bool) (e : StepError) :
    (m.conclude action attempt (.error e) =
      { m.setTask { m.task with todo := m.task.todo.tail, holding := none } with
        control := .running, trace := .did m.current action (.error e) :: m.trace }) ∨
    (attempt = false ∧ ∃ err f rest, e = .graph err ∧ m.frames = f :: rest ∧
      m.conclude action attempt (.error e) =
        { m with
          workspace := m.workspace.setGraph (m.graph.leave f.node), frames := rest,
          control := .returned (.error err),
          trace := .did m.current action (.error e) :: m.trace }) := by
  obtain ⟨w₀, base, frames, control, trace₀⟩ := m
  cases frames with
  | nil => cases e <;> cases attempt <;> exact .inl rfl
  | cons f rest =>
    cases attempt with
    | true => exact .inl (by cases e <;> rfl)
    | false =>
      -- A compute ends for an error of the graph only. Where a reference leads nowhere it goes on.
      cases e with
      | graph err => exact .inr ⟨rfl, err, f, rest, rfl, rfl, rfl⟩
      | noHandle => exact .inl rfl
      | notComputing => exact .inl rfl

theorem turn_conclude_error {action : Action} {attempt : Bool} {e : StepError}
    (h : ∀ write, m.write? = some write → ¬ write.Own) :
    Turn m (m.conclude action attempt (.error e)) := by
  obtain hc | ⟨-, err, f, rest, -, hf, hc⟩ := conclude_error (m := m) action attempt e
  · rw [hc]
    refine .step (fun _ => ?_) ?_
    · rfl
    · rw [workspace_setTask]
      cases hw : m.write? with
      | none => exact .nothing
      | some write => exact .refused (h write hw)
  · rw [hc]
    exact .leave hf h (fun v e => by cases e)

/-! ## Moves -/

/-- A read of a socket is answered without a compute if it has an answer. -/
theorem demand_of_answer {s : Socket} {outcome : Except GraphError Value}
    (h : m.graph.answer? s = some outcome) :
    ∃ trace, m.demand s = { m with control := .returned outcome, trace := trace } := by
  unfold Graph.answer? at h
  unfold demand
  revert h
  cases m.graph.cell? s with
  | some v => intro h; cases h; exact ⟨_, rfl⟩
  | none =>
    cases m.graph.alive s.owner with
    | false => intro h; cases h; exact ⟨m.trace, rfl⟩
    | true =>
      cases m.graph.computing s.owner with
      | true => intro h; cases h; exact ⟨_, rfl⟩
      | false => intro h; cases h

/-- A read of a socket without an answer starts the compute of the owner. -/
theorem demand_of_no_answer {s : Socket} (h : m.graph.answer? s = none) : m.demand s = m.enter s := by
  obtain ⟨hn, ha, hc⟩ := Graph.answer?_eq_none_iff.mp h
  simp [demand, hn, ha, hc]

theorem turn_demand {s : Socket} {holding : Option NodeId} (h : m.Demands s holding) :
    Turn m ((m.setTask { m.task with holding := holding }).demand s) := by
  cases ha : m.graph.answer? s with
  | none =>
    rw [demand_of_no_answer (by simpa using ha)]
    exact .enter h ha
  | some outcome =>
    obtain ⟨trace, e⟩ := demand_of_answer
      (m := m.setTask { m.task with holding := holding }) (by simpa using ha)
    rw [e]
    exact .answer h ha

theorem Demands.begin_eq {s : Socket} {holding : Option NodeId} (h : m.Demands s holding) :
    ∃ d into attempt rest, m.task.todo = .act (.demand d into) attempt :: rest ∧
      (Action.demand d into).begin m.scope m.workspace = .ok (.demand s holding) := by
  obtain ⟨-, d, into, attempt, rest, ht, hd⟩ := h
  exact ⟨d, into, attempt, rest, ht, bind_eq_ok.mpr ⟨_, hd, rfl⟩⟩

/-- A move at which a read begins. -/
theorem move_of_demands {s : Socket} {holding : Option NodeId} (h : m.Demands s holding) :
    m.move = ((m.setTask { m.task with holding := holding }).demand s).settle := by
  obtain ⟨d, into, attempt, rest, ht, hb⟩ := h.begin_eq
  simp only [move, h.1, advance, ht, perform, hb]

section Begin

variable {action : Action} {attempt : Bool} {rest : List Instr}

/-- A step that is refused is concluded at once. -/
theorem move_of_error (hr : m.control = .running) (ht : m.task.todo = .act action attempt :: rest)
    {e : StepError} (hb : action.begin m.scope m.workspace = .error e) :
    m.move = (m.conclude action attempt (.error e)).settle := by
  simp only [move, hr, advance, ht, perform, hb]

/-- So is a step that needs no compute. -/
theorem move_of_done (hr : m.control = .running) (ht : m.task.todo = .act action attempt :: rest)
    {reply : Reply} {w : Workspace} {records : List Record}
    (hb : action.begin m.scope m.workspace = .ok (.done reply w records)) :
    m.move = (({ m with workspace := w }.tellAll records).conclude action attempt
      (.ok reply)).settle := by
  simp only [move, hr, advance, ht, perform, hb]

/-- A step that reads a socket. -/
theorem demands_of_begin (hr : m.control = .running) (ht : m.task.todo = .act action attempt :: rest)
    {s : Socket} {holding : Option NodeId}
    (hb : action.begin m.scope m.workspace = .ok (.demand s holding)) : m.Demands s holding := by
  refine ⟨hr, ?_⟩
  cases action with
  | demand d into =>
    refine ⟨d, into, attempt, rest, ht, ?_⟩
    obtain ⟨⟨o, h'⟩, hd, hb⟩ := bind_eq_ok.mp hb
    cases o with
    | none => cases pure_eq_ok.mp hb
    | some t => cases pure_eq_ok.mp hb; exact hd
  | query q => obtain ⟨a, -, hb⟩ := bind_eq_ok.mp hb; cases pure_eq_ok.mp hb
  | edit e => obtain ⟨a, -, hb⟩ := bind_eq_ok.mp hb; cases pure_eq_ok.mp hb
  | fail message => obtain ⟨a, -, hb⟩ := bind_eq_ok.mp hb; cases hb

/-- A step that is over by itself has the effect of an edit. -/
theorem effect_of_begin (hr : m.control = .running) (ht : m.task.todo = .act action attempt :: rest)
    {reply : Reply} {w : Workspace} {records : List Record}
    (hb : action.begin m.scope m.workspace = .ok (.done reply w records)) :
    Effect m.scope m.workspace m.write? w := by
  cases action with
  | demand d into =>
    obtain ⟨⟨o, h'⟩, hd, hb⟩ := bind_eq_ok.mp hb
    cases o with
    | none => cases pure_eq_ok.mp hb; simpa [write?, hr, ht] using .nothing
    | some t => cases pure_eq_ok.mp hb
  | query q =>
    obtain ⟨⟨r, rs⟩, -, hb⟩ := bind_eq_ok.mp hb
    cases pure_eq_ok.mp hb
    simpa [write?, hr, ht] using .nothing
  | edit e =>
    obtain ⟨⟨r, w', rs⟩, ha, hb⟩ := bind_eq_ok.mp hb
    cases pure_eq_ok.mp hb
    simpa [write?, hr, ht] using Edit.effect_of_apply ha
  | fail message => obtain ⟨a, -, hb⟩ := bind_eq_ok.mp hb; cases hb

/-- A step that is refused makes no write of an owner. -/
theorem not_own_of_begin (hr : m.control = .running) (ht : m.task.todo = .act action attempt :: rest)
    {e : StepError} (hb : action.begin m.scope m.workspace = .error e) {write : Write}
    (hw : m.write? = some write) : ¬ write.Own := by
  cases action with
  | edit edit =>
    have hw' : edit.write? m.scope m.workspace = some write := by simpa [write?, hr, ht] using hw
    cases ha : edit.apply m.scope m.workspace with
    | error err => exact Edit.not_own_of_apply hw' ha
    | ok r => simp [Action.begin, ha, bind, Except.bind, pure, Except.pure] at hb
  | _ => simp [write?, hr, ht] at hw

theorem move_of_failure {e : GraphError} (hc : m.control = .returned (.error e))
    (ht : m.task.todo = .act action attempt :: rest) :
    m.move = (m.conclude action attempt (.error (.graph e))).settle := by
  simp only [move, hc, resume, ht]

theorem move_of_value {v : Value} (hc : m.control = .returned (.ok v))
    (ht : m.task.todo = .act action attempt :: rest) :
    m.move = ((m.keep action v).conclude action attempt (.ok (.value v))).settle := by
  simp only [move, hc, resume, ht]

/-- An outcome that no step waits for is passed over. -/
theorem move_of_unawaited {outcome : Except GraphError Value} (hc : m.control = .returned outcome)
    (ht : ¬ ∃ action attempt rest, m.task.todo = .act action attempt :: rest) :
    m.move = m.next.settle := by
  simp only [move, hc, resume]
  split
  · next action attempt rest e => exact absurd ⟨action, attempt, rest, e⟩ ht
  · rfl

/-- A task goes on with the steps of a branch. -/
theorem move_of_branch (hr : m.control = .running) {register : String} {is : Value}
    {yes no : List Instr} (ht : m.task.todo = .branch register is yes no :: rest) :
    m.move = (m.setTask { m.task with
      todo := (if m.scope.register register == is then yes else no) ++ rest }).settle := by
  simp only [move, hr, advance, ht]

/-- A compute that has no steps left is over. -/
theorem move_of_complete (hr : m.control = .running) (ht : m.task.todo = []) {f : Frame}
    {frames : List Frame} (hf : m.frames = f :: frames) : m.move = (m.complete f frames).settle := by
  simp only [move, hr, advance, ht, hf]

/-- What the step at the head does is a turn. -/
theorem turn_perform (hr : m.control = .running) (ht : m.task.todo = .act action attempt :: rest) :
    Turn m (m.perform action attempt) := by
  unfold perform
  cases hb : action.begin m.scope m.workspace with
  | error e => exact turn_conclude_error fun write hw => not_own_of_begin hr ht hb hw
  | ok progress =>
    cases progress with
    | demand s holding => exact turn_demand (demands_of_begin hr ht hb)
    | done reply w records =>
      have heff := effect_of_begin hr ht hb
      simp only [tellAll_eq, conclude_ok, setTask_with]
      exact .step (fun _ => rfl) heff

end Begin

/-- A compute is over when it has no steps left, and the read that started it gets the value of the
socket, if it is set. -/
theorem complete_eq (f : Frame) (rest : List Frame) :
    ∃ trace, m.complete f rest = { m with
      workspace := m.workspace.setGraph (m.graph.leave f.node), frames := rest,
      control := .returned (match m.graph.cell? f.demanded with
        | some v => .ok v
        | none => .error (.invariantViolation f.demanded)),
      trace := trace } := by
  unfold complete
  simp only [graph_tell]
  cases m.graph.cell? f.demanded <;> exact ⟨_, rfl⟩

theorem turn_advance (h : m.control = .running) : Turn m m.advance := by
  unfold advance
  split
  · next action attempt rest ht => exact turn_perform h ht
  · next register is yes no rest ht =>
    have hw : m.write? = none := by simp [write?, h, ht]
    rw [m.setTask_of_running _ h]
    refine .step (fun hh => hh h) ?_
    rw [hw, workspace_setTask]
    exact .nothing
  · next ht =>
    have hw : m.write? = none := by simp [write?, h, ht]
    -- Without steps the innermost compute is over, and at the top level nothing is left to do.
    cases hf : m.frames with
    | cons f rest =>
      obtain ⟨trace, e⟩ := complete_eq (m := m) f rest
      simp only [e]
      refine .leave hf (fun write e => by rw [hw] at e; cases e) fun v e => ⟨h, ht, ?_⟩
      revert e
      cases m.graph.cell? f.demanded <;> simp
    | nil =>
      refine .rest ?_
      have hb : m.base.todo = [] := by simpa [task, hf] using ht
      simp [idle, h, hf, hb]

theorem exists_keep (action : Action) (v : Value) : ∃ t, m.keep action v = m.setTask t := by
  unfold keep
  split
  · exact ⟨_, rfl⟩
  · exact ⟨m.task, m.setTask_task.symm⟩

@[simp] theorem todo_keep (action : Action) (v : Value) :
    (m.keep action v).task.todo = m.task.todo := by
  unfold keep
  split <;> simp

theorem turn_resume {outcome : Except GraphError Value} (h : m.control = .returned outcome) :
    Turn m (m.resume outcome) := by
  have hw := write?_of_returned h
  have hn (write : Write) (e : m.write? = some write) : ¬ write.Own := by rw [hw] at e; cases e
  unfold resume
  split
  · next action attempt rest ht =>
    cases outcome with
    | error e => exact turn_conclude_error hn
    | ok v =>
      obtain ⟨t, hk⟩ := exists_keep (m := m) action v
      simp only [hk, conclude_ok, setTask_setTask]
      refine .step (fun _ => ?_) ?_
      · rfl
      · rw [hw, workspace_setTask]; exact .nothing
  · refine .step (fun _ => ?_) ?_
    · rfl
    · rw [hw, workspace_setTask]; exact .nothing

/-- A move is a turn, and then nodes die. -/
theorem exists_turn (m : Machine) : ∃ m', Turn m m' ∧ m.move = m'.settle := by
  unfold move
  split
  · next outcome h => exact ⟨_, turn_resume h, rfl⟩
  · next h => exact ⟨_, turn_advance h, rfl⟩

end Machine

end PullGraph

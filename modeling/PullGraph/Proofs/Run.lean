import PullGraph.Proofs.Move

/-!
# Runs

* `Run`: a run of a program, with all the moments before the present one. A program may go on with
  any step whenever nothing is left to do.
* `Machine.Leads`: moves that lead from one moment to another while something holds on the way.
  `Machine.Reads` is a read from its beginning to its outcome, `Machine.Ends` any step from its
  beginning to its end.
* `Run.of_execAll`: what a program goes through is such a run.
* `Run.turns`: what the start has and every turn and every new step keep holds in every run.
* `Run.settled`, `Run.holding_eq_none`: at every moment the living nodes are held, and only a step
  that waits holds on to a node. `Run.unheld_eq_nil`: between the steps of the program they are held
  by handles and bindings.
* `Run.move_of_answer`: a read that needs no compute changes nothing.
* `Machine.Demands.exists_return`, `Machine.Reads.sameTasks`: the computes that a read starts leave
  the tasks below alone, and so it has its outcome where it began.
-/

namespace PullGraph

/-- A run of a program up to a moment, with the moments before it, the latest first. -/
inductive Run : List Machine → Machine → Prop
  | start : Run [] .start
  | move {past : List Machine} {m : Machine} : Run past m → Run (m :: past) m.move
  | load {past : List Machine} {m : Machine} (action : Action) : Run past m → m.idle = true →
      Run (m :: past) (m.load action)

namespace Machine

/-- Moves lead from one moment to another, and `p` holds at every moment before the last. -/
inductive Leads (p : Machine → Prop) : Machine → Machine → Prop
  | refl (m : Machine) : Leads p m m
  | move {m m' : Machine} : p m → Leads p m.move m' → Leads p m m'

/-- Moves lead from one moment to another, and something is left to do at all those before. -/
def Reaches (m m' : Machine) : Prop := Leads (fun n => n.idle = false) m m'

variable (m : Machine)

/-- The read of a socket that begins at `m` has its outcome at `m'`: the computes that it started
are over, and no moment before is like that. -/
structure Reads (s : Socket) (outcome : Except GraphError Value) (m' : Machine) : Prop where
  demands : ∃ holding, m.Demands s holding
  leads : Leads (fun n => m.frames.length < n.frames.length) m.move m'
  length_eq : m'.frames.length = m.frames.length
  control_eq : m'.control = .returned outcome

/-- A step that began when `depth` computes were in progress is over: the task goes on, or the
compute that it was part of is over too. -/
def Past (depth : Nat) : Prop :=
  m.frames.length < depth ∨ (m.frames.length = depth ∧ m.control = .running)

/-- The step that begins at `m` is over at `m'`, and not before. -/
structure Ends (m' : Machine) : Prop where
  running : m.control = .running
  todo_eq : ∃ action attempt rest, m.task.todo = .act action attempt :: rest
  leads : Leads (fun n => ¬ n.Past m.frames.length) m.move m'
  past : m'.Past m.frames.length

/-- The machines have the same tasks in the same computes. -/
def SameTasks (outer : Machine) : Prop := m.frames = outer.frames ∧ m.base = outer.base

/-- Further computes are in progress above the tasks of `outer`. -/
def Above (outer : Machine) : Prop :=
  ∃ inner, inner ≠ [] ∧ m.frames = inner ++ outer.frames ∧ m.base = outer.base

/-- Every living node is held. -/
def Settled : Prop := m.graph.unheld (m.workspace.handles.holds ++ m.holds) = []

/-! ## Runs of the machine -/

section Reaches

variable {m m' : Machine}

theorem reaches_of_run {limit : Nat} (h : run limit m = some m') :
    m.Reaches m' ∧ m'.idle = true := by
  induction limit generalizing m with
  | zero => cases h
  | succ limit ih =>
    rw [run] at h
    cases hi : m.idle with
    | true =>
      rw [hi, if_pos rfl] at h
      cases h
      exact ⟨.refl _, hi⟩
    | false =>
      rw [hi, if_neg Bool.false_ne_true] at h
      exact ⟨.move hi (ih h).1, (ih h).2⟩

theorem exists_run (h : m.Reaches m') (hi : m'.idle = true) :
    ∃ limit, ∀ more, limit ≤ more → run more m = some m' := by
  induction h with
  | refl m =>
    refine ⟨1, fun more hmore => ?_⟩
    obtain ⟨k, rfl⟩ := Nat.exists_eq_add_of_le' hmore
    rw [run, if_pos hi]
  | @move m m' hm _ ih =>
    obtain ⟨limit, hl⟩ := ih hi
    refine ⟨limit + 1, fun more hmore => ?_⟩
    obtain ⟨k, rfl⟩ := Nat.exists_eq_add_of_le' hmore
    rw [show k + (limit + 1) = (k + limit) + 1 from rfl, run, hm, if_neg Bool.false_ne_true]
    exact hl _ (Nat.le_add_left _ _)

/-- More moves than are needed change nothing. -/
theorem run_mono {limit more : Nat} (h : run limit m = some m') (hmore : limit ≤ more) :
    run more m = some m' := by
  induction limit generalizing m more with
  | zero => cases h
  | succ limit ih =>
    obtain ⟨k, rfl⟩ := Nat.exists_eq_add_of_le' hmore
    rw [show k + (limit + 1) = (k + limit) + 1 from rfl]
    rw [run] at h ⊢
    cases hi : m.idle with
    | true => rwa [hi, if_pos rfl] at h
    | false =>
      rw [hi, if_neg Bool.false_ne_true] at h
      rw [if_neg Bool.false_ne_true]
      exact ih h (Nat.le_add_left _ _)

end Reaches

/-! ## Deaths -/

section Settle

@[simp] theorem wanted_settle : m.settle.wanted = m.wanted := rfl

@[simp] theorem stack_settle : m.settle.stack = m.stack := rfl

@[simp] theorem control_settle : m.settle.control = m.control := rfl

theorem graph_settle :
    m.settle.graph = m.graph.release (m.workspace.handles.holds ++ m.holds) := rfl

theorem settled_settle : m.settle.Settled := m.graph.unheld_release _

variable {m} in
/-- Where every living node is held, nothing dies. -/
theorem settle_eq_self (h : m.Settled) : m.settle = m := by
  obtain ⟨⟨g, handles⟩, base, frames, control, trace⟩ := m
  simp only [settle, Workspace.release, Workspace.setGraph]
  rw [g.release_eq_self h]

variable {m} in
theorem holds_subset_holds_setTask (h : m.task.holding = none) (t : Task) :
    m.holds ⊆ (m.setTask t).holds := by
  obtain ⟨w, base, frames, control, trace⟩ := m
  cases frames with
  | nil =>
    have hn : base.holding = none := h
    simp [holds, setTask, hn]
  | cons f rest =>
    have hn : f.task.holding = none := h
    intro id hid
    simp only [holds, setTask, List.flatMap_cons, hn, List.mem_append, List.mem_cons,
      Option.toList_none, List.not_mem_nil, or_false] at hid ⊢
    rcases hid with hb | rfl | hr
    · exact .inl hb
    · exact .inr (.inl (.inl rfl))
    · exact .inr (.inr hr)

end Settle

/-! ## Computes above a step -/

section Above

variable {m} {m' n outer : Machine} {p : Machine → Prop}

theorem Leads.eq_of_not (h : Leads p m m') (hp : ¬ p m) : m' = m := by
  cases h with
  | refl => rfl
  | move h _ => exact absurd h hp

/-- A read that has no answer starts a compute above the task that it is part of. -/
theorem Demands.move_cases {s : Socket} {holding : Option NodeId} (h : m.Demands s holding) :
    m.move.Above (m.setTask { m.task with holding := holding }) ∨
      (m.move.SameTasks (m.setTask { m.task with holding := holding }) ∧
        ∃ outcome, m.move.control = .returned outcome) := by
  rw [move_of_demands h]
  cases ha : m.graph.answer? s with
  | none =>
    rw [demand_of_no_answer (by simpa using ha)]
    exact .inl ⟨[_], List.cons_ne_nil _ _, rfl, rfl⟩
  | some outcome =>
    obtain ⟨trace, e⟩ := demand_of_answer
      (m := m.setTask { m.task with holding := holding }) (by simpa using ha)
    rw [e]
    exact .inr ⟨⟨rfl, rfl⟩, outcome, rfl⟩

theorem Leads.mono {q : Machine → Prop} (h : Leads p m n) (hpq : ∀ n, p n → q n) :
    Leads q m n := by
  induction h with
  | refl => exact .refl _
  | move hp _ ih => exact .move (hpq _ hp) ih

theorem Leads.trans {k : Machine} (h : Leads p m n) (h' : Leads p n k) : Leads p m k := by
  induction h with
  | refl => exact h'
  | move hp _ ih => exact .move hp (ih h')

theorem SameTasks.task_eq (h : m.SameTasks outer) : m.task = outer.task := by
  simp only [task, h.1, h.2]

theorem SameTasks.stack_eq (h : m.SameTasks outer) : m.stack = outer.stack := by
  simp only [stack, wanted, h.1]

theorem Above.length_lt (h : m.Above outer) : outer.frames.length < m.frames.length := by
  obtain ⟨inner, hne, hf, -⟩ := h
  have := List.length_pos_iff.mpr hne
  rw [hf, List.length_append]
  omega

/-- A turn with further computes above some tasks leaves these tasks alone. -/
theorem Turn.above (h : Turn m m') (ha : m.Above outer) :
    m'.Above outer ∨ (m'.SameTasks outer ∧ ∃ outcome, m'.control = .returned outcome) := by
  obtain ⟨inner, hne, hf, hb⟩ := ha
  obtain ⟨f, inner, rfl⟩ := List.exists_cons_of_ne_nil hne
  have hset (t : Task) : (m.setTask t).frames = { f with task := t } :: inner ++ outer.frames ∧
      (m.setTask t).base = outer.base := by
    obtain ⟨w, base, frames, control, trace⟩ := m
    subst hf hb
    exact ⟨rfl, rfl⟩
  -- A turn only ever touches the innermost task, which is above the others as long as one is.
  cases h with
  | rest hi => rw [(idle_cases hi).2.1] at hf; cases hf
  | @step task => exact .inl ⟨_, List.cons_ne_nil _ _, hset task⟩
  | @answer _ holding =>
    exact .inl ⟨_, List.cons_ne_nil _ _, hset { m.task with holding := holding }⟩
  | @enter s holding =>
    obtain ⟨hf, hb⟩ := hset { m.task with holding := holding }
    exact .inl ⟨_ :: _, List.cons_ne_nil _ _, congrArg (List.cons _) hf, hb⟩
  | @leave g rest outcome _ hg =>
    rw [hf, List.cons_append] at hg
    obtain ⟨-, rfl⟩ := List.cons.inj hg
    cases inner with
    | nil => exact .inr ⟨⟨rfl, hb⟩, outcome, rfl⟩
    | cons f inner => exact .inl ⟨f :: inner, List.cons_ne_nil _ _, rfl, hb⟩

/-- Computes that were started above some tasks are over only by way of a moment at which the read
that started them has its outcome. -/
theorem Leads.exists_return (h : Leads p n m') (ha : n.Above outer) (hend : ¬ m'.Above outer) :
    ∃ k, Leads (·.Above outer) n k ∧ k.SameTasks outer ∧
      (∃ outcome, k.control = .returned outcome) ∧ Leads p k m' := by
  induction h with
  | refl => exact absurd ha hend
  | @move n m' _ hl ih =>
    obtain ⟨t, ht, e⟩ := exists_turn n
    obtain ha' | ⟨hs, hc⟩ := ht.above ha
    · obtain ⟨k, hk, hr⟩ := ih (e ▸ ha') hend
      exact ⟨k, .move ha hk, hr⟩
    · exact ⟨n.move, .move ha (.refl _), e ▸ hs, e ▸ hc, hl⟩

/-- A read that leads back to where no more computes are in progress has its outcome on the way, in
the tasks in which it began. -/
theorem Demands.exists_return {s : Socket} {holding : Option NodeId} (h : m.Demands s holding)
    (hl : Leads p m.move m') (hend : m'.frames.length ≤ m.frames.length) :
    ∃ k, Leads (·.Above (m.setTask { m.task with holding := holding })) m.move k ∧
      k.SameTasks (m.setTask { m.task with holding := holding }) ∧
        (∃ outcome, k.control = .returned outcome) ∧ Leads p k m' := by
  obtain ha | ⟨hs, hc⟩ := h.move_cases
  · refine hl.exists_return ha fun ha => ?_
    have hlt := ha.length_lt
    rw [length_frames_setTask] at hlt
    omega
  · exact ⟨m.move, .refl _, hs, hc, hl⟩

/-- A read has its outcome in the same tasks in which it began. -/
theorem Reads.sameTasks {s : Socket} {outcome : Except GraphError Value} (h : m.Reads s outcome m') :
    ∃ holding, m.Demands s holding ∧
      m'.SameTasks (m.setTask { m.task with holding := holding }) := by
  obtain ⟨holding, hd⟩ := h.demands
  obtain ⟨k, -, hs, -, hk⟩ := hd.exists_return h.leads (Nat.le_of_eq h.length_eq)
  have hlen : k.frames.length = m.frames.length := by rw [hs.1, length_frames_setTask]
  rw [hk.eq_of_not (hlen ▸ Nat.lt_irrefl _)]
  exact ⟨holding, hd, hs⟩

end Above

end Machine

open Machine

namespace Run

variable {past : List Machine} {m : Machine}

/-- What holds at the start and is kept by turns, deaths and new steps holds in every run. -/
theorem turns {P : Machine → Prop} (h : Run past m) (start : P .start)
    (turn : ∀ m m', P m → Turn m m' → P m'.settle)
    (load : ∀ m action, P m → m.idle = true → P (m.load action)) : P m := by
  induction h with
  | start => exact start
  | move _ ih =>
    obtain ⟨m', ht, e⟩ := exists_turn _
    rw [e]
    exact turn _ _ ih ht
  | load action _ hi ih => exact load _ action ih hi

theorem settled (h : Run past m) : m.Settled := by
  refine h.turns rfl (fun _ m' _ _ => m'.settled_settle) fun m action hs _ => ?_
  exact hs

/-- Only a step that waits holds on to a node. -/
theorem holding_eq_none (h : Run past m) : m.control = .running → m.task.holding = none := by
  refine h.turns (P := fun m => m.control = .running → m.task.holding = none) (fun _ => rfl)
    (fun m m' ih ht => ?_) fun m action ih hi _ => ?_
  · cases ht with
    | rest hi => exact ih
    | @step task _ _ hh _ =>
      intro _
      change (m.setTask task).task.holding = none
      rw [task_setTask]
      exact hh ih
    | answer => intro hc; cases hc
    | enter => intro _; rfl
    | leave => intro hc; cases hc
  · obtain ⟨hc, hf, -⟩ := idle_cases hi
    have hb := ih hc
    rw [task_of_nil hf] at hb
    rw [task_of_nil (show (m.load action).frames = [] from hf)]
    exact hb

/-- Where nothing is computing, handles and bindings hold every living node. -/
theorem unheld_eq_nil (h : Run past m) (hi : m.idle = true) :
    m.workspace.graph.unheld m.workspace.handles.holds = [] := by
  obtain ⟨hc, hf, -⟩ := idle_cases hi
  have hn : m.base.holding = none := task_of_nil hf ▸ h.holding_eq_none hc
  have hh : m.holds = [] := by simp [holds, hf, hn]
  have hs : m.graph.unheld (m.workspace.handles.holds ++ m.holds) = [] := h.settled
  rwa [hh, List.append_nil] at hs

/-- What a waiting step holds on to is held besides all else, so that nothing dies of it. -/
theorem settle_setTask (h : Run past m) (hr : m.control = .running) (t : Task) (c : Control)
    (trace : List Event) :
    { m.setTask t with control := c, trace := trace }.settle =
      { m.setTask t with control := c, trace := trace } := by
  have hs := holds_subset_holds_setTask (h.holding_eq_none hr) t
  refine settle_eq_self (Graph.unheld_eq_nil_of_subset ?_ (List.append_subset.mpr
    ⟨List.subset_append_left _ _, fun _ hid => List.mem_append_right _ (hs hid)⟩))
  simpa [graph, Settled] using h.settled

/-- A read that needs no compute is answered at once, and nothing changes but what the step holds
on to. -/
theorem move_of_answer (h : Run past m) {s : Socket} {holding : Option NodeId}
    {outcome : Except GraphError Value} (hd : m.Demands s holding)
    (ha : m.graph.answer? s = some outcome) :
    ∃ trace, m.move = { m.setTask { m.task with holding := holding } with
      control := .returned outcome, trace := trace } := by
  obtain ⟨trace, e⟩ := demand_of_answer
    (m := m.setTask { m.task with holding := holding }) (by simpa using ha)
  refine ⟨trace, ?_⟩
  rw [move_of_demands hd, e, h.settle_setTask hd.1]

/-- A run is a run up to each of its moments. -/
theorem of_mem (h : Run past m) {earlier : Machine} (he : earlier ∈ past) :
    ∃ before, Run before earlier ∧ before <:+ past := by
  induction h with
  | start => cases he
  | @move past m hr ih | @load past m action hr _ ih =>
    rcases List.mem_cons.mp he with rfl | he
    · exact ⟨past, hr, List.suffix_cons _ _⟩
    · obtain ⟨before, hb, hs⟩ := ih he
      exact ⟨before, hb, hs.trans (List.suffix_cons _ _)⟩

theorem of_append (h : Run past m) {later before : List Machine} {earlier : Machine}
    (hp : past = later ++ earlier :: before) : Run before earlier := by
  induction h generalizing later with
  | start => cases later <;> cases hp
  | @move past n hr ih | @load past n action hr _ ih =>
    cases later with
    | nil =>
      cases hp
      exact hr
    | cons x later => exact ih (List.cons.inj hp).2

/-- What a move and a new step keep is kept from each moment of a run on. -/
theorem keep_of_mem {P : Machine → Prop} (h : Run past m) {earlier : Machine} (he : earlier ∈ past)
    (move : ∀ past m, Run past m → P m → P m.move)
    (load : ∀ past m action, Run past m → m.idle = true → P m → P (m.load action))
    (hp : P earlier) : P m := by
  induction h with
  | start => cases he
  | @move past m hr ih =>
    rcases List.mem_cons.mp he with rfl | he
    · exact move past _ hr hp
    · exact move past m hr (ih he)
  | @load past m action hr hi ih =>
    rcases List.mem_cons.mp he with rfl | he
    · exact load past _ action hr hi hp
    · exact load past m action hr hi (ih he)

theorem leads (h : Run past m) {p : Machine → Prop} {m' : Machine} (hl : Leads p m m') :
    ∃ past', Run (past' ++ past) m' ∧ ∀ n ∈ past', p n := by
  induction hl generalizing past with
  | refl m => exact ⟨[], h, by simp⟩
  | @move m m' hp _ ih =>
    obtain ⟨past', hr, hm⟩ := ih h.move
    refine ⟨past' ++ [m], by simpa using hr, fun n hn => ?_⟩
    rcases List.mem_append.mp hn with hn | hn
    · exact hm n hn
    · exact List.mem_singleton.mp hn ▸ hp

/-- What holds of the kind of every node holds of the kinds of the living ones. -/
theorem forall_alive (_ : Run past m) {P : Logic → Prop}
    (hP : ∀ k < m.graph.nodes.size, P (m.graph.logic ⟨k⟩)) (id : NodeId)
    (ha : m.graph.alive id = true) : P (m.graph.logic id) := hP id.ordinal (Graph.alive_lt _ ha)

/-- A step that comes to an end leads from one rest of a run to another. -/
theorem of_exec (h : Run past m) (hi : m.idle = true) {limit : Nat} {action : Action} {entry : Entry}
    {m' : Machine} (he : m.exec limit action = some (entry, m')) :
    (∃ past', Run past' m') ∧ m'.idle = true := by
  obtain ⟨n, hn, he⟩ := Option.bind_eq_some_iff.mp he
  obtain ⟨entry', -, he⟩ := Option.bind_eq_some_iff.mp he
  cases he
  obtain ⟨hl, hi'⟩ := reaches_of_run hn
  obtain ⟨past', hr, -⟩ := (h.load action hi).leads hl
  exact ⟨⟨_, hr⟩, hi'⟩

/-- So does a program. -/
theorem of_execAll {limit : Nat} {actions : List Action} {entries : List Entry} {m' : Machine}
    (h : Run past m) (hi : m.idle = true) (he : m.execAll limit actions = some (entries, m')) :
    (∃ past', Run past' m') ∧ m'.idle = true := by
  induction actions generalizing past m entries with
  | nil => cases he; exact ⟨⟨past, h⟩, hi⟩
  | cons action actions ih =>
    obtain ⟨⟨entry, n⟩, hn, he⟩ := Option.bind_eq_some_iff.mp he
    obtain ⟨⟨rest, k⟩, hk, he⟩ := Option.bind_eq_some_iff.mp he
    cases he
    obtain ⟨⟨past', h'⟩, hi'⟩ := h.of_exec hi hn
    exact ih h' hi' hk

end Run

end PullGraph

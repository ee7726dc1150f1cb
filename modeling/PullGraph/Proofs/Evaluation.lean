import PullGraph.Proofs.Halting
import PullGraph.Proofs.Own

/-!
# Reads from beginning to end

Where only own steps are at work, a read can be told from its beginning to its end without the moves
in between: the reads of a compute are parts of it, like the computes that they start.

* `Job`: what is told of, a read or the steps that a compute has left.
* `Evaluates`: from one workspace a job leads to another, with an outcome, and these computes begin
  on the way.
* `Evaluates.advances`: what a job does to a workspace and what it leaves alone.
  `Evaluates.cell?_eq`: a value that it yields is in the cell.
* `Workspace.Closed.yields_read`: every read comes to an end, whatever the wiring. The induction is on
  the living nodes that are not computing and then on the steps that are left.
* `Evaluates.does`: what is told is what the machine does.
* `Machine.exists_exec_of_evaluates`, `Machine.exists_exec_of_closed`: so it is what a read of a
  program comes to.
-/

namespace PullGraph

/-! ## Jobs -/

/-- A read of a socket, or the steps that are left of a compute that was started for one. -/
inductive Job where
  | read (s : Socket)
  | steps (s : Socket) (call : Nat) (registers : Table Value) (todo : List Instr)

/-- The compute that is over after the job. -/
def Job.ended : Job → List NodeId
  | .read _ => []
  | .steps s _ _ _ => [s.owner]

/-- The socket that the job is about. -/
def Job.socket : Job → Socket
  | .read s => s
  | .steps s _ _ _ => s

/-- What the compute that was started for a socket yields when it has no steps left. -/
def Graph.yield (g : Graph) (s : Socket) : Except GraphError Value :=
  match g.cell? s with
  | some v => .ok v
  | none => .error (.invariantViolation s)

/-- The registers after a read that yields a value. -/
def Table.keep (registers : Table Value) (into : Option String) (v : Value) : Table Value :=
  (into.map (registers.insert · v)).getD registers

/-- The step is an own step, and begins like this in a compute for the socket. -/
structure Begins (w : Workspace) (s : Socket) (call : Nat) (registers : Table Value)
    (action : Action) (attempt : Bool) (progress : Except StepError Progress) : Prop where
  own : (Instr.act action attempt).Own fun _ => True
  begin_eq : action.begin ⟨some s.owner, call, registers⟩ w = progress

/-- From the first workspace the job leads to the second one. The list has the nodes whose computes
begin, the first one first. -/
inductive Evaluates : Workspace → Job → List NodeId → Except GraphError Value → Workspace → Prop
  /-- A read needs no compute. -/
  | answer {w : Workspace} {s : Socket} {outcome : Except GraphError Value} :
      w.graph.answer? s = some outcome → Evaluates w (.read s) [] outcome w
  /-- A read starts a compute. -/
  | compute {w w' : Workspace} {s : Socket} {log : List NodeId} {outcome : Except GraphError Value} :
      w.graph.answer? s = none →
      Evaluates (w.setGraph (w.graph.enter s.owner)) (.steps s (w.graph.calls s.owner + 1) .empty
        ((w.graph.logic s.owner).program (w.graph.calls s.owner + 1))) log outcome w' →
      Evaluates w (.read s) (s.owner :: log) outcome w'
  /-- A compute has no steps left. -/
  | finish {w : Workspace} {s : Socket} {call : Nat} {registers : Table Value} :
      Evaluates w (.steps s call registers []) [] (w.graph.yield s)
        (w.setGraph (w.graph.leave s.owner))
  /-- A branch is taken. -/
  | branch {w w' : Workspace} {s : Socket} {call : Nat} {registers : Table Value} {register : String}
      {is : Value} {yes no todo : List Instr} {log : List NodeId}
      {outcome : Except GraphError Value} :
      Evaluates w (.steps s call registers
        ((if Scope.register ⟨some s.owner, call, registers⟩ register == is then yes else no) ++ todo))
        log outcome w' →
      Evaluates w (.steps s call registers (.branch register is yes no :: todo)) log outcome w'
  /-- A step is over by itself. -/
  | done {w w₁ w' : Workspace} {s : Socket} {call : Nat} {registers : Table Value} {action : Action}
      {attempt : Bool} {reply : Reply} {records : List Record} {todo : List Instr}
      {log : List NodeId} {outcome : Except GraphError Value} :
      Begins w s call registers action attempt (.ok (.done reply w₁ records)) →
      Evaluates w₁ (.steps s call registers todo) log outcome w' →
      Evaluates w (.steps s call registers (.act action attempt :: todo)) log outcome w'
  /-- A step is refused, and the compute ends for it. -/
  | stop {w : Workspace} {s : Socket} {call : Nat} {registers : Table Value} {action : Action}
      {e : GraphError} {todo : List Instr} :
      Begins w s call registers action false (.error (.graph e)) →
      Evaluates w (.steps s call registers (.act action false :: todo)) [] (.error e)
        (w.setGraph (w.graph.leave s.owner))
  /-- An attempt is refused. -/
  | skip {w w' : Workspace} {s : Socket} {call : Nat} {registers : Table Value} {action : Action}
      {e : GraphError} {todo : List Instr} {log : List NodeId} {outcome : Except GraphError Value} :
      Begins w s call registers action true (.error (.graph e)) →
      Evaluates w (.steps s call registers todo) log outcome w' →
      Evaluates w (.steps s call registers (.act action true :: todo)) log outcome w'
  /-- A step reads a socket, and the value goes to its register. -/
  | value {w w₁ w' : Workspace} {s t : Socket} {call : Nat} {registers : Table Value} {d : Demand}
      {into : Option String} {attempt : Bool} {holding : Option NodeId} {v : Value}
      {todo : List Instr} {log log' : List NodeId} {outcome : Except GraphError Value} :
      Begins w s call registers (.demand d into) attempt (.ok (.demand t holding)) →
      Evaluates w (.read t) log (.ok v) w₁ →
      Evaluates w₁ (.steps s call (registers.keep into v) todo) log' outcome w' →
      Evaluates w (.steps s call registers (.act (.demand d into) attempt :: todo)) (log ++ log')
        outcome w'
  /-- A step reads a socket in vain, and the compute ends for it. -/
  | fail {w w₁ : Workspace} {s t : Socket} {call : Nat} {registers : Table Value} {d : Demand}
      {into : Option String} {holding : Option NodeId} {e : GraphError} {todo : List Instr}
      {log : List NodeId} :
      Begins w s call registers (.demand d into) false (.ok (.demand t holding)) →
      Evaluates w (.read t) log (.error e) w₁ →
      Evaluates w (.steps s call registers (.act (.demand d into) false :: todo)) log (.error e)
        (w₁.setGraph (w₁.graph.leave s.owner))
  /-- An attempt to read a socket is in vain. -/
  | swallow {w w₁ w' : Workspace} {s t : Socket} {call : Nat} {registers : Table Value} {d : Demand}
      {into : Option String} {holding : Option NodeId} {e : GraphError} {todo : List Instr}
      {log log' : List NodeId} {outcome : Except GraphError Value} :
      Begins w s call registers (.demand d into) true (.ok (.demand t holding)) →
      Evaluates w (.read t) log (.error e) w₁ →
      Evaluates w₁ (.steps s call registers todo) log' outcome w' →
      Evaluates w (.steps s call registers (.act (.demand d into) true :: todo)) (log ++ log')
        outcome w'

/-! ## What a job leaves alone -/

/-- The computes of the list began since the first workspace, and those of `ended` are over. Cells of
no other nodes were filled, and nothing else has changed. -/
structure Workspace.Advances (w : Workspace) (ended log : List NodeId) (w' : Workspace) : Prop where
  grows : w.Grows w'
  size_eq : w'.graph.nodes.size = w.graph.nodes.size
  calls_eq : ∀ id, w'.graph.calls id = w.graph.calls id + log.count id
  cell?_eq : ∀ s : Socket, s.owner ∉ ended → s.owner ∉ log → w'.graph.cell? s = w.graph.cell? s
  busy_iff : ∀ id, w'.graph.busy id = true ↔ id ∉ ended ∧ w.graph.busy id = true

namespace Workspace.Advances

variable {w w₁ w' : Workspace} {ended log log' : List NodeId} {s : Socket}

theorem refl (w : Workspace) : w.Advances [] [] w :=
  ⟨.refl w, rfl, fun _ => rfl, fun _ _ _ => rfl, fun _ => by simp⟩

/-- A part of a job, and then the rest. -/
theorem trans (h : w.Advances [] log w₁) (h' : w₁.Advances ended log' w') :
    w.Advances ended (log ++ log') w' where
  grows := h.grows.trans h'.grows
  size_eq := h'.size_eq.trans h.size_eq
  calls_eq id := by rw [h'.calls_eq, h.calls_eq, List.count_append, Nat.add_assoc]
  cell?_eq s ho hl := by
    obtain ⟨hl, hl'⟩ := not_or.mp (mt List.mem_append.mpr hl)
    rw [h'.cell?_eq s ho hl', h.cell?_eq s List.not_mem_nil hl]
  busy_iff id := by rw [h'.busy_iff, h.busy_iff]; simp

theorem leave (w : Workspace) (s : Socket) :
    w.Advances [s.owner] [] (w.setGraph (w.graph.leave s.owner)) where
  grows := (Grows.refl w).leave s.owner
  size_eq := Graph.size_update
  calls_eq id := Graph.calls_leave _ _ _
  cell?_eq t _ _ := Graph.cell?_leave _ _ _
  busy_iff id := by
    change (w.graph.leave s.owner).busy id = true ↔ _
    rw [Graph.busy_leave, Bool.and_eq_true, decide_eq_true_iff, List.mem_singleton]

/-- The compute that a read starts, from its beginning to its end. -/
theorem of_compute (ha : w.graph.answer? s = none)
    (h : (w.setGraph (w.graph.enter s.owner)).Advances [s.owner] log w') :
    w.Advances [] (s.owner :: log) w' where
  grows := ((Grows.refl w).enter s.owner).trans h.grows
  size_eq := h.size_eq.trans Graph.size_update
  calls_eq id := by
    rw [h.calls_eq, List.count_cons]
    change (w.graph.enter s.owner).calls id + _ = _
    by_cases e : s.owner = id
    · subst e
      rw [Graph.calls_enter_self _ (Graph.answer?_eq_none_iff.mp ha).2.1]
      simp only [BEq.rfl, if_true]
      omega
    · rw [Graph.calls_enter_of_ne _ (Ne.symm e)]
      simp [e]
  cell?_eq t _ ht := by
    rw [List.mem_cons, not_or] at ht
    rw [h.cell?_eq t (by simpa using ht.1) ht.2]
    exact Graph.cell?_enter _ _ _
  busy_iff id := by
    rw [h.busy_iff]
    change _ ∧ (w.graph.enter s.owner).busy id = true ↔ _
    rw [Graph.busy_enter (Graph.answer?_eq_none_iff.mp ha).2.1]
    by_cases e : id = s.owner
    · simp [e, Graph.busy_eq_false_of_answer? ha]
    · simp [e]

/-- A write of a compute, and then the rest of it. -/
theorem of_fill {t : Socket} {v : Value} (ht : t.owner = s.owner) (hd : w.graph.Declares t)
    (h : (w.setGraph (w.graph.fill t v)).Advances [s.owner] log w') :
    w.Advances [s.owner] log w' where
  grows := ((Grows.refl w).fill hd v).trans h.grows
  size_eq := h.size_eq.trans Graph.size_update
  calls_eq id := by rw [h.calls_eq]; exact congrArg (· + _) (Graph.calls_fill _ _ _ _)
  cell?_eq u ho hl := by
    rw [h.cell?_eq u ho hl]
    refine Graph.cell?_fill_of_ne _ _ ?_
    rintro rfl
    exact ho (List.mem_singleton.mpr ht)
  busy_iff id := by
    rw [h.busy_iff]
    change _ ∧ (w.graph.fill t v).busy id = true ↔ _
    rw [Graph.busy_fill]

theorem busy_iff_of_read (h : w.Advances [] log w') (id : NodeId) :
    w'.graph.busy id = true ↔ w.graph.busy id = true := by
  rw [h.busy_iff]
  simp

end Workspace.Advances

variable {w w' : Workspace} {job : Job} {log : List NodeId} {outcome : Except GraphError Value}

/-- A step that is over by itself fills a cell, or does nothing. -/
theorem Begins.grows {w₀ w₁ : Workspace} {s : Socket} {call : Nat} {registers : Table Value}
    {action : Action} {attempt : Bool} {reply : Reply} {records : List Record}
    (h : Begins w s call registers action attempt (.ok (.done reply w₁ records)))
    (hg : w₀.Grows w) : w₀.Grows w₁ := by
  obtain rfl | ⟨t, v, -, hd, rfl⟩ := h.own.exists_fill h.begin_eq
  · exact hg
  · exact hg.fill hd v

/-- A job fills cells of the nodes that compute, and does nothing else. -/
theorem Evaluates.advances (h : Evaluates w job log outcome w') : w.Advances job.ended log w' := by
  induction h with
  | answer => exact .refl _
  | compute ha _ ih => exact ih.of_compute ha
  | finish | stop => exact .leave _ _
  | branch _ ih | skip _ _ ih => exact ih
  | done hb _ ih =>
    obtain rfl | ⟨t, v, ht, hd, rfl⟩ := hb.own.exists_fill hb.begin_eq
    · exact ih
    · exact ih.of_fill ht hd
  | value _ _ _ ih ih' | swallow _ _ _ ih ih' => exact ih.trans ih'
  | fail _ _ ih => simpa only [Job.ended, List.append_nil] using ih.trans (.leave _ _)

/-- A job that yields a value leaves it in the cell. -/
theorem Evaluates.cell?_eq {v : Value} (h : Evaluates w job log (.ok v) w') :
    w'.graph.cell? job.socket = some v := by
  generalize e : Except.ok v = outcome at h
  induction h with
  | answer ha => exact Graph.cell?_of_answer? (e ▸ ha)
  | compute _ _ ih | branch _ ih | done _ _ ih | skip _ _ ih => exact ih e
  | value _ _ _ _ ih | swallow _ _ _ _ ih => exact ih e
  | stop | fail => cases e
  | @finish w s call registers =>
    refine (Graph.cell?_leave _ _ _).trans ?_
    change w.graph.cell? s = some v
    cases hc : w.graph.cell? s with
    | none => rw [Graph.yield, hc] at e; cases e
    | some u => rw [Graph.yield, hc] at e; cases e; rfl

/-! ## Every read comes to an end -/

/-- The nodes of a set have own steps only, and what they would have to compute is in the set too. -/
structure Workspace.Closed (w : Workspace) (Q : NodeId → Prop) : Prop where
  own : ∀ id, Q id → (w.graph.logic id).OwnInput fun _ => True
  bound : ∀ id name s, Q id → (w.graph.inputs id).get name = .ok (some s) →
    w.graph.cell? s = none → w.graph.alive s.owner = true → Q s.owner

/-- The job comes to an end, and all computes on the way are of nodes of the set. -/
def Workspace.Yields (w : Workspace) (Q : NodeId → Prop) (job : Job) : Prop :=
  ∃ log outcome w', Evaluates w job log outcome w' ∧ ∀ id ∈ log, Q id

namespace Workspace.Closed

variable {Q : NodeId → Prop}

theorem grows (h : w.Closed Q) (hg : w.Grows w') : w'.Closed Q where
  own id hid := hg.logic_eq id ▸ h.own id hid
  bound id name s hid hget hc ha :=
    h.bound id name s hid (hg.inputs_eq id ▸ hget) (hg.unset s hc) (hg.alive_eq s.owner ▸ ha)

theorem spare_le (h : w.Advances [] log w') : w'.graph.spare ≤ w.graph.spare :=
  Graph.spare_le h.grows.alive_eq fun id => Bool.eq_iff_iff.mpr (h.busy_iff_of_read id)

/-- The steps of a compute come to an end if the reads do. -/
theorem yields_steps {spares : Nat}
    (hread : ∀ w : Workspace, w.Closed Q → w.graph.spare ≤ spares →
      ∀ t, (w.graph.answer? t = none → Q t.owner) → w.Yields Q (.read t))
    {s : Socket} (hs : Q s.owner) (call : Nat) (todo : List Instr) (w : Workspace) (h : w.Closed Q)
    (hsp : w.graph.spare ≤ spares) (registers : Table Value)
    (ho : ∀ i ∈ todo, i.Own fun _ => True) : w.Yields Q (.steps s call registers todo) := by
  -- On the size of the steps and not on their number, since a branch is replaced by one of its
  -- sides. No step makes a node spare, so `hread` stays good for all that follow.
  induction hsize : sizeOf todo using Nat.strongRecOn generalizing todo w registers with
  | _ size ih =>
    cases todo with
    | nil => exact ⟨[], _, _, .finish, nofun⟩
    | cons i todo =>
      obtain ⟨hi, htodo⟩ := List.forall_mem_cons.mp ho
      have hpos : sizeOf todo < size := by
        rw [← hsize, List.cons.sizeOf_spec]
        omega
      -- The steps after this one come to an end wherever it leads.
      have hrest (w₁ : Workspace) (h₁ : w₁.Closed Q) (hsp₁ : w₁.graph.spare ≤ spares)
          (registers : Table Value) : w₁.Yields Q (.steps s call registers todo) :=
        ih _ hpos todo w₁ h₁ hsp₁ registers htodo rfl
      cases i with
      | branch register is yes no =>
        obtain ⟨log, outcome, w', he, hlog⟩ := ih _ (hsize ▸ Machine.sizeOf_chosen_lt _ _ _ _ _ _) _
          w h hsp registers (hi.of_chosen htodo
            (Scope.register ⟨some s.owner, call, registers⟩ register == is)) rfl
        exact ⟨log, outcome, w', .branch he, hlog⟩
      | act action attempt =>
        obtain ⟨e, hb⟩ | ⟨reply, w₁, records, hb, hfill⟩ | ⟨d, into, name, t, rfl, -, hget, hb⟩ :=
          hi.begin_cases w s.owner call registers
        · cases attempt with
          | false => exact ⟨[], _, _, .stop ⟨hi, hb⟩, nofun⟩
          | true =>
            obtain ⟨log, outcome, w', he, hlog⟩ := hrest w h hsp registers
            exact ⟨log, outcome, w', .skip ⟨hi, hb⟩ he, hlog⟩
        · have hw₁ : w₁.Closed Q ∧ w₁.graph.spare ≤ spares := by
            obtain rfl | ⟨t, v, -, hd, rfl⟩ := hfill
            · exact ⟨h, hsp⟩
            · refine ⟨h.grows ((Grows.refl w).fill hd v), Nat.le_trans ?_ hsp⟩
              exact Graph.spare_le (Graph.alive_fill _ _ _) fun id => Graph.busy_fill _ _
          obtain ⟨log, outcome, w', he, hlog⟩ := hrest w₁ hw₁.1 hw₁.2 registers
          exact ⟨log, outcome, w', .done ⟨hi, hb⟩ he, hlog⟩
        · obtain ⟨log, outcome, w₁, he, hlog⟩ := hread w h hsp t fun ha =>
            have hans := Graph.answer?_eq_none_iff.mp ha
            h.bound _ _ _ hs hget hans.1 hans.2.1
          have hadv := he.advances
          have hrest₁ := hrest w₁ (h.grows hadv.grows) (Nat.le_trans (spare_le hadv) hsp)
          cases outcome with
          | ok v =>
            obtain ⟨log', outcome, w', he', hlog'⟩ := hrest₁ (registers.keep into v)
            exact ⟨_, outcome, w', .value ⟨hi, hb⟩ he he', List.forall_mem_append.mpr ⟨hlog, hlog'⟩⟩
          | error e =>
            cases attempt with
            | false => exact ⟨log, _, _, .fail ⟨hi, hb⟩ he, hlog⟩
            | true =>
              obtain ⟨log', outcome, w', he', hlog'⟩ := hrest₁ registers
              exact ⟨_, outcome, w', .swallow ⟨hi, hb⟩ he he',
                List.forall_mem_append.mpr ⟨hlog, hlog'⟩⟩

/-- Every read comes to an end. -/
theorem yields_read_of_spare (spares : Nat) : ∀ w : Workspace, w.Closed Q → w.graph.spare ≤ spares →
    ∀ s, (w.graph.answer? s = none → Q s.owner) → w.Yields Q (.read s) := by
  induction spares using Nat.strongRecOn with
  | _ spares ih =>
    intro w h hsp s hs
    cases ha : w.graph.answer? s with
    | some outcome => exact ⟨[], outcome, w, .answer ha, nofun⟩
    | none =>
      -- The compute makes its node busy, so fewer nodes are spare for the reads in it.
      have hlt := Graph.spare_enter_lt ha
      obtain ⟨log, outcome, w', he, hlog⟩ := yields_steps (ih _ (Nat.lt_of_lt_of_le hlt hsp)) (hs ha)
        (w.graph.calls s.owner + 1) _ _ (h.grows ((Grows.refl w).enter s.owner)) (Nat.le_refl _)
        .empty (h.own _ (hs ha) _)
      exact ⟨_, outcome, w', .compute ha he, List.forall_mem_cons.mpr ⟨hs ha, hlog⟩⟩

theorem yields_read (h : w.Closed Q) {s : Socket} (hs : w.graph.answer? s = none → Q s.owner) :
    w.Yields Q (.read s) := yields_read_of_spare _ w h (Nat.le_refl _) s hs

end Workspace.Closed

/-! ## The machine does the job -/

namespace Machine

/-- A compute on top of a machine. -/
def under (m : Machine) (f : Frame) (w : Workspace) (trace : List Event) : Machine :=
  { m with workspace := w, frames := f :: m.frames, control := .running, trace := trace }

/-- A machine whose read has its outcome. -/
def back (m : Machine) (w : Workspace) (outcome : Except GraphError Value) (trace : List Event) :
    Machine :=
  { m with workspace := w, control := .returned outcome, trace := trace }

/-- The machine does the job: a read that begins comes to have its outcome, and a compute with these
steps on top of a machine comes to be over. -/
def Does (w : Workspace) (job : Job) (outcome : Except GraphError Value) (w' : Workspace) : Prop :=
  match job with
  | .read s => ∀ (m : Machine) (holding : Option NodeId), m.workspace = w → m.Demands s holding →
      ∃ trace, Leads (fun n => m.frames.length < n.frames.length) m.move
        ((m.setTask { m.task with holding := holding }).back w' outcome trace)
  | .steps s call registers todo => ∀ (m : Machine) (trace : List Event), ∃ trace',
      Leads (fun n => m.frames.length < n.frames.length)
        (m.under ⟨s, ⟨call, registers, todo, none⟩⟩ w trace) (m.back w' outcome trace')

variable {m n n' k : Machine} {s t : Socket} {call : Nat} {registers : Table Value}
  {todo : List Instr} {trace : List Event} {holding : Option NodeId} {p : Machine → Prop}

theorem exists_enter_eq_under (s : Socket) :
    ∃ trace, m.enter s = m.under ⟨s, ⟨m.graph.calls s.owner + 1, .empty,
      (m.graph.logic s.owner).program (m.graph.calls s.owner + 1), none⟩⟩
        (m.workspace.setGraph (m.graph.enter s.owner)) trace := ⟨_, rfl⟩

/-- A read of an unset socket puts the compute of its owner on top. -/
theorem exists_move_eq_under (hd : m.Demands s holding) (ha : m.graph.answer? s = none) :
    ∃ trace, m.move = ((m.setTask { m.task with holding := holding }).under
      ⟨s, ⟨m.graph.calls s.owner + 1, .empty,
        (m.graph.logic s.owner).program (m.graph.calls s.owner + 1), none⟩⟩
      (m.workspace.setGraph (m.graph.enter s.owner)) trace).settle := by
  obtain ⟨trace, e⟩ := exists_enter_eq_under (m := m.setTask { m.task with holding := holding }) s
  rw [graph_setTask, workspace_setTask] at e
  refine ⟨trace, ?_⟩
  rw [move_of_demands hd, demand_of_no_answer (by rw [graph_setTask]; exact ha), e]

section Moves

variable {w₀ w₁ : Workspace} (h₀ : w₀.graph.unheld w₀.handles.holds = [])

include h₀

/-- Nothing dies at a move that only fills cells. -/
theorem leads_of_move (hp : p n) (hm : n.move = n'.settle) (hg : w₀.Grows n'.workspace)
    (hl : Leads p n' k) : Leads p n k := by
  rw [hg.settle_eq h₀] at hm
  exact .move hp (hm ▸ hl)

theorem settle_back (hg : w₀.Grows w) :
    (m.back w outcome trace).settle = m.back w outcome trace := hg.settle_eq h₀

theorem settle_under {f : Frame} (hg : w₀.Grows w) :
    (m.under f w trace).settle = m.under f w trace := hg.settle_eq h₀

/-- A read that needs no compute has its outcome at once. -/
theorem does_answer (hg : w₀.Grows w) (ha : w.graph.answer? s = some outcome) :
    Does w (.read s) outcome w := by
  rintro m holding rfl hd
  have hans : (m.setTask { m.task with holding := holding }).graph.answer? s = some outcome := by
    rw [graph_setTask]
    exact ha
  obtain ⟨trace, e⟩ := demand_of_answer hans
  refine ⟨trace, ?_⟩
  have hback : (m.setTask { m.task with holding := holding }).back m.workspace outcome trace =
      { m.setTask { m.task with holding := holding } with
        control := .returned outcome, trace := trace } := by
    rw [back, ← m.workspace_setTask { m.task with holding := holding }]
  rw [move_of_demands hd, e, ← hback, settle_back h₀ hg]
  exact .refl _

/-- A read of an unset socket does what the compute of its owner does. -/
theorem does_compute (hg : w₀.Grows w) (ha : w.graph.answer? s = none)
    (hsteps : Does (w.setGraph (w.graph.enter s.owner)) (.steps s (w.graph.calls s.owner + 1) .empty
      ((w.graph.logic s.owner).program (w.graph.calls s.owner + 1))) outcome w') :
    Does w (.read s) outcome w' := by
  rintro m holding rfl hd
  obtain ⟨trace, hm⟩ := exists_move_eq_under hd ha
  obtain ⟨trace', hl⟩ := hsteps (m.setTask { m.task with holding := holding }) trace
  rw [length_frames_setTask] at hl
  refine ⟨trace', ?_⟩
  rw [hm.trans (settle_under h₀ (hg.enter _))]
  exact hl

/-- A compute that is over gives its outcome to the read that started it. -/
theorem exists_leads_of_finish {f : Frame} (hg : w₀.Grows w) (hn : n.frames = f :: m.frames)
    (hm : n.move = { m with
      workspace := w.setGraph (w.graph.leave f.node), control := .returned outcome,
      trace := trace }.settle) :
    ∃ trace', Leads (fun n => m.frames.length < n.frames.length) n
      (m.back (w.setGraph (w.graph.leave f.node)) outcome trace') := by
  refine ⟨trace, leads_of_move h₀ ?_ hm (hg.leave f.node) (.refl _)⟩
  rw [hn]
  exact Nat.lt_succ_self _

/-- The rest of a compute follows a move that stays in it. -/
theorem exists_leads_of_under {f : Frame} (hg : w₀.Grows w) (hn : m.frames.length < n.frames.length)
    (hm : n.move = (m.under f w trace).settle)
    (hrest : ∀ trace, ∃ trace', Leads (fun n => m.frames.length < n.frames.length)
      (m.under f w trace) (m.back w' outcome trace')) :
    ∃ trace', Leads (fun n => m.frames.length < n.frames.length) n (m.back w' outcome trace') := by
  obtain ⟨trace', hl⟩ := hrest trace
  exact ⟨trace', leads_of_move h₀ hn hm hg hl⟩

section Steps

variable {action : Action} {attempt : Bool} {e : GraphError}

theorem does_finish (hg : w₀.Grows w) :
    Does w (.steps s call registers []) (w.graph.yield s) (w.setGraph (w.graph.leave s.owner)) := by
  intro m trace
  obtain ⟨trace', e⟩ := complete_eq (m := m.under ⟨s, ⟨call, registers, [], none⟩⟩ w trace)
    ⟨s, ⟨call, registers, [], none⟩⟩ m.frames
  exact exists_leads_of_finish (f := ⟨s, ⟨call, registers, [], none⟩⟩) h₀ hg rfl
    (congrArg settle e)

theorem does_branch (hg : w₀.Grows w) {register : String} {is : Value} {yes no : List Instr}
    (hrest : Does w (.steps s call registers
      ((if Scope.register ⟨some s.owner, call, registers⟩ register == is then yes else no) ++ todo))
      outcome w') :
    Does w (.steps s call registers (.branch register is yes no :: todo)) outcome w' := fun m _ =>
  exists_leads_of_under h₀ hg (Nat.lt_succ_self _) rfl (hrest m)

theorem does_done {reply : Reply} {records : List Record}
    (hb : Begins w s call registers action attempt (.ok (.done reply w₁ records)))
    (hg : w₀.Grows w₁) (hrest : Does w₁ (.steps s call registers todo) outcome w') :
    Does w (.steps s call registers (.act action attempt :: todo)) outcome w' := by
  intro m trace
  have hm := move_of_done
    (m := m.under ⟨s, ⟨call, registers, .act action attempt :: todo, none⟩⟩ w trace) rfl rfl
    hb.begin_eq
  rw [tellAll_eq, conclude_ok] at hm
  exact exists_leads_of_under h₀ hg (Nat.lt_succ_self _) hm (hrest m)

theorem does_stop (hb : Begins w s call registers action false (.error (.graph e)))
    (hg : w₀.Grows w) : Does w (.steps s call registers (.act action false :: todo)) (.error e)
      (w.setGraph (w.graph.leave s.owner)) := by
  intro m trace
  have hm := move_of_error
    (m := m.under ⟨s, ⟨call, registers, .act action false :: todo, none⟩⟩ w trace) rfl rfl
    hb.begin_eq
  exact exists_leads_of_finish (f := ⟨s, ⟨call, registers, .act action false :: todo, none⟩⟩) h₀ hg
    rfl hm

theorem does_skip (hb : Begins w s call registers action true (.error (.graph e)))
    (hg : w₀.Grows w) (hrest : Does w (.steps s call registers todo) outcome w') :
    Does w (.steps s call registers (.act action true :: todo)) outcome w' := by
  intro m trace
  have hm := move_of_error
    (m := m.under ⟨s, ⟨call, registers, .act action true :: todo, none⟩⟩ w trace) rfl rfl
    hb.begin_eq
  exact exists_leads_of_under h₀ hg (Nat.lt_succ_self _) hm (hrest m)

variable {d : Demand} {into : Option String} {v : Value}

omit h₀ in
/-- A step that reads a socket leads to where the read has its outcome. -/
theorem exists_leads_of_read
    (hb : Begins w s call registers (.demand d into) attempt (.ok (.demand t holding)))
    (hread : Does w (.read t) outcome w₁) (m : Machine) (trace : List Event) :
    ∃ trace', Leads (fun n => m.frames.length < n.frames.length)
      (m.under ⟨s, ⟨call, registers, .act (.demand d into) attempt :: todo, none⟩⟩ w trace)
      ((m.under ⟨s, ⟨call, registers, .act (.demand d into) attempt :: todo, holding⟩⟩ w trace).back
        w₁ outcome trace') := by
  have hd : (m.under ⟨s, ⟨call, registers, .act (.demand d into) attempt :: todo, none⟩⟩ w
      trace).Demands t holding := demands_of_begin rfl rfl hb.begin_eq
  obtain ⟨trace', hl⟩ := hread _ holding rfl hd
  exact ⟨trace', .move (Nat.lt_succ_self _) (hl.mono fun n hn => Nat.lt_of_succ_lt hn)⟩

omit h₀ in
/-- The value that a read yields goes to its register. -/
theorem exists_move_of_value {trace₁ : List Event} :
    ∃ trace₂, ((m.under ⟨s, ⟨call, registers, .act (.demand d into) attempt :: todo, holding⟩⟩ w
      trace).back w₁ (.ok v) trace₁).move =
        (m.under ⟨s, ⟨call, registers.keep into v, todo, none⟩⟩ w₁ trace₂).settle := by
  cases into <;> exact ⟨_, rfl⟩

theorem does_value
    (hb : Begins w s call registers (.demand d into) attempt (.ok (.demand t holding)))
    (hg : w₀.Grows w₁) (hread : Does w (.read t) (.ok v) w₁)
    (hrest : Does w₁ (.steps s call (registers.keep into v) todo) outcome w') :
    Does w (.steps s call registers (.act (.demand d into) attempt :: todo)) outcome w' := by
  intro m trace
  obtain ⟨trace₁, hl⟩ := exists_leads_of_read hb hread m trace
  obtain ⟨trace₂, hm⟩ := exists_move_of_value (m := m) (s := s) (w := w) (d := d)
  obtain ⟨trace', hl'⟩ := exists_leads_of_under h₀ hg (Nat.lt_succ_self _) hm (hrest m)
  exact ⟨trace', hl.trans hl'⟩

theorem does_fail
    (hb : Begins w s call registers (.demand d into) false (.ok (.demand t holding)))
    (hg : w₀.Grows w₁) (hread : Does w (.read t) (.error e) w₁) :
    Does w (.steps s call registers (.act (.demand d into) false :: todo)) (.error e)
      (w₁.setGraph (w₁.graph.leave s.owner)) := by
  intro m trace
  obtain ⟨trace₁, hl⟩ := exists_leads_of_read hb hread m trace
  have hm := move_of_failure (m := (m.under ⟨s, ⟨call, registers,
    .act (.demand d into) false :: todo, holding⟩⟩ w trace).back w₁ (.error e) trace₁) rfl rfl
  obtain ⟨trace', hl'⟩ := exists_leads_of_finish (m := m)
    (f := ⟨s, ⟨call, registers, .act (.demand d into) false :: todo, holding⟩⟩) h₀ hg rfl hm
  exact ⟨trace', hl.trans hl'⟩

theorem does_swallow
    (hb : Begins w s call registers (.demand d into) true (.ok (.demand t holding)))
    (hg : w₀.Grows w₁) (hread : Does w (.read t) (.error e) w₁)
    (hrest : Does w₁ (.steps s call registers todo) outcome w') :
    Does w (.steps s call registers (.act (.demand d into) true :: todo)) outcome w' := by
  intro m trace
  obtain ⟨trace₁, hl⟩ := exists_leads_of_read hb hread m trace
  have hm := move_of_failure (m := (m.under ⟨s, ⟨call, registers,
    .act (.demand d into) true :: todo, holding⟩⟩ w trace).back w₁ (.error e) trace₁) rfl rfl
  obtain ⟨trace', hl'⟩ := exists_leads_of_under (f := ⟨s, ⟨call, registers, todo, none⟩⟩)
    (m := m) h₀ hg (Nat.lt_succ_self _) hm (hrest m)
  exact ⟨trace', hl.trans hl'⟩

end Steps

end Moves

end Machine

open Machine in
/-- What is told of a job is what the machine does. -/
theorem Evaluates.does {w₀ : Workspace} (h : Evaluates w job log outcome w')
    (h₀ : w₀.graph.unheld w₀.handles.holds = []) (hg : w₀.Grows w) : Does w job outcome w' := by
  induction h with
  | answer ha => exact does_answer h₀ hg ha
  | compute ha _ ih => exact does_compute h₀ hg ha (ih (hg.enter _))
  | finish => exact does_finish h₀ hg
  | branch _ ih => exact does_branch h₀ hg (ih hg)
  | done hb _ ih => exact does_done h₀ hb (hb.grows hg) (ih (hb.grows hg))
  | stop hb => exact does_stop h₀ hb hg
  | skip hb _ ih => exact does_skip h₀ hb hg (ih hg)
  | value hb he _ ih ih' =>
    have hg₁ := hg.trans he.advances.grows
    exact does_value h₀ hb hg₁ (ih hg) (ih' hg₁)
  | fail hb he ih => exact does_fail h₀ hb (hg.trans he.advances.grows) (ih hg)
  | swallow hb he _ ih ih' =>
    have hg₁ := hg.trans he.advances.grows
    exact does_swallow h₀ hb hg₁ (ih hg) (ih' hg₁)

/-- A read that a program makes comes to what is told of it. -/
theorem Machine.exists_exec_of_evaluates {past : List Machine} {m : Machine} (h : Run past m)
    (hi : m.idle = true) {d : Demand} (into : Option String) {s : Socket} {holding : Option NodeId}
    (ht : d.target ⟨none, 0, .empty⟩ m.workspace = .ok (some s, holding))
    (he : Evaluates m.workspace (.read s) log outcome w') :
    ∃ (entry : Entry) (k : Machine), entry.result = (StepError.ofGraph outcome).map Reply.value ∧
      (∃ past', Run past' k) ∧ k.idle = true ∧ k.workspace = w' ∧
        ∃ limit, ∀ more, limit ≤ more → m.exec more (.demand d into) = some (entry, k) := by
  have h₀ := h.unheld_eq_nil hi
  have hd : (m.load (.demand d into)).Demands s holding := demands_of_load hi ht
  obtain ⟨trace, hl⟩ := he.does h₀ (.refl _) (m.load (.demand d into)) holding rfl hd
  have hr : (m.load (.demand d into)).Reads s outcome
      (((m.load (.demand d into)).setTask
        { (m.load (.demand d into)).task with holding := holding }).back w' outcome trace) :=
    ⟨⟨holding, hd⟩, hl, length_frames_setTask _ _, rfl⟩
  obtain ⟨hreach, hni, entry, hentry, hexec⟩ := exists_exec_of_reads hi hr
  obtain ⟨hidle, hwork⟩ := move_of_reads hi hr
  obtain ⟨past', hrun, -⟩ := (h.load (.demand d into) hi).leads (hreach.trans (.move hni (.refl _)))
  exact ⟨entry, _, hentry, ⟨_, hrun⟩, hidle, hwork.trans (he.advances.grows.release_eq h₀ []), hexec⟩

/-- Where all living nodes have own steps only, a read of a program comes to what is told of its
socket, or it is about none and changes nothing. -/
theorem Machine.exists_exec_of_closed {past : List Machine} {m : Machine} (h : Run past m)
    (hi : m.idle = true) (hc : m.workspace.Closed fun id => m.graph.alive id = true) (d : Demand)
    (into : Option String) :
    ∃ (entry : Entry) (k : Machine), (∃ past', Run past' k) ∧ k.idle = true ∧
      (∃ limit, ∀ more, limit ≤ more → m.exec more (.demand d into) = some (entry, k)) ∧
      ((∃ s holding log outcome, d.target ⟨none, 0, .empty⟩ m.workspace = .ok (some s, holding) ∧
        m.graph.Declares s ∧ Evaluates m.workspace (.read s) log outcome k.workspace ∧
        entry.result = (StepError.ofGraph outcome).map Reply.value) ∨
      (∀ s holding, d.target ⟨none, 0, .empty⟩ m.workspace ≠ .ok (some s, holding)) ∧
        k.workspace = m.workspace ∧ entry.result = m.workspace.naiveRead d) := by
  by_cases ht : ∃ s holding, d.target ⟨none, 0, .empty⟩ m.workspace = .ok (some s, holding)
  · obtain ⟨s, holding, ht⟩ := ht
    have hd : (m.load (.demand d into)).Demands s holding := demands_of_load hi ht
    obtain ⟨log, outcome, w', he, -⟩ := hc.yields_read (s := s) fun ha =>
      (Graph.answer?_eq_none_iff.mp ha).2.1
    obtain ⟨entry, k, hentry, hrun, hidle, rfl, hexec⟩ := exists_exec_of_evaluates h hi into ht he
    exact ⟨entry, k, hrun, hidle, hexec, .inl ⟨s, holding, log, outcome, ht,
      hd.declares (wired (h.load _ hi)), he, hentry⟩⟩
  · have hn : ∀ s holding, d.target ⟨none, 0, .empty⟩ m.workspace ≠ .ok (some s, holding) :=
      fun s holding e => ht ⟨s, holding, e⟩
    obtain ⟨hidle, hwork, entry, hentry, hexec⟩ := exists_exec_of_unread hi into hn
    rw [(Workspace.Grows.refl m.workspace).release_eq (h.unheld_eq_nil hi)] at hwork
    exact ⟨entry, _, ⟨_, (h.load _ hi).move⟩, hidle, hexec, .inr ⟨hn, hwork, hentry⟩⟩

end PullGraph

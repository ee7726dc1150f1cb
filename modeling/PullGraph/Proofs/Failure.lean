import PullGraph.Proofs.Run

/-!
# Where errors come from

An error that a read returns has its origin in one move: a read is refused, or a compute fails of
its own. From there it is only handed on.

* `Machine.Failed`: a read has come to an error by now.
* `Machine.Refuses`: the next move refuses a read. `Machine.Falters`: at the next move a compute
  fails, and not for a read.
* `Machine.failed_move`: there is no other origin.
* `Machine.Leads.failed`: so what is true of all refusals and failures on the way is true of all
  errors of reads.
-/

namespace PullGraph

/-- A read is refused at once for lack of the owner or because the owner is computing. -/
theorem Graph.answer?_eq_error {g : Graph} {s : Socket} {e : GraphError}
    (h : g.answer? s = some (.error e)) :
    g.cell? s = none ∧ (g.alive s.owner = false ∧ e = .ownerDropped s.name ∨
      g.alive s.owner = true ∧ g.computing s.owner = true ∧ e = .cycleDetected s) := by
  unfold answer? at h
  revert h
  cases g.cell? s <;> cases g.alive s.owner <;> cases g.computing s.owner <;> simp [eq_comm]

/-- An input is not found if it is not declared. -/
theorem Inputs.get_eq_error {inputs : Inputs} {key : String} {e : GraphError}
    (h : inputs.get key = .error e) : key ∉ inputs.names ∧ e = .unknownKey key := by
  refine inputs.binding_eq_error_iff.mp ?_
  unfold get at h
  cases hb : inputs.binding key with
  | error e' => rw [hb] at h; cases h; rfl
  | ok b => rw [hb] at h; cases h

namespace Machine

variable (m : Machine) (e : GraphError)

/-- The trace tells of a read with the error. -/
def Tells : Prop := ∃ who d into, Event.did who (.demand d into) (.error (.graph e)) ∈ m.trace

/-- A read has returned the error: to the step that waits for it, or the trace tells of it. -/
def Failed : Prop := m.control = .returned (.error e) ∨ m.Tells e

/-- The next move refuses the read that it begins. -/
def Refuses : Prop :=
  m.control = .running ∧ ∃ d into attempt rest,
    m.task.todo = .act (.demand d into) attempt :: rest ∧
      (d.target m.scope m.workspace = .error (.graph e) ∨
        ∃ s holding, d.target m.scope m.workspace = .ok (some s, holding) ∧
          m.graph.answer? s = some (.error e))

/-- The next move ends the innermost compute with an error of its own: a step that is no read and
more than an attempt is refused, or the steps are over and the socket that was read is unset. -/
def Falters : Prop :=
  m.control = .running ∧ ∃ f frames, m.frames = f :: frames ∧
    ((f.task.todo = [] ∧ m.graph.cell? f.demanded = none ∧ e = .invariantViolation f.demanded) ∨
      ∃ action rest, f.task.todo = .act action false :: rest ∧ (∀ d into, action ≠ .demand d into) ∧
        action.begin m.scope m.workspace = .error (.graph e))

variable {m e} {m' : Machine}

theorem Failed.settle : m.settle.Failed e ↔ m.Failed e := .rfl

section Sound

variable {f : Frame} {frames : List Frame} (hf : m.frames = f :: frames)

include hf

/-- A compute does not fail of its own at a read, -/
theorem not_falters_of_demand {d : Demand} {into : Option String} {attempt : Bool}
    {steps : List Instr} (ht : f.task.todo = .act (.demand d into) attempt :: steps) :
    ¬ m.Falters e := by
  rintro ⟨-, f', frames', hf', he⟩
  obtain ⟨rfl, -⟩ := List.cons.inj (hf.symm.trans hf')
  obtain ⟨ht', -⟩ | ⟨action, steps', ht', hn, -⟩ := he
  · cases ht.symm.trans ht'
  · cases ht.symm.trans ht'
    exact hn d into rfl

/-- at a step that is not refused, -/
theorem not_falters_of_begin {action : Action} {attempt : Bool} {steps : List Instr}
    {progress : Progress} (ht : f.task.todo = .act action attempt :: steps)
    (hb : action.begin m.scope m.workspace = .ok progress) : ¬ m.Falters e := by
  rintro ⟨-, f', frames', hf', he⟩
  obtain ⟨rfl, -⟩ := List.cons.inj (hf.symm.trans hf')
  obtain ⟨ht', -⟩ | ⟨action', steps', ht', -, hb'⟩ := he
  · cases ht.symm.trans ht'
  · cases ht.symm.trans ht'
    cases hb.symm.trans hb'

/-- or at its end, if the socket that was read is set by then. -/
theorem not_falters_of_nil {v : Value} (ht : f.task.todo = [])
    (hc : m.graph.cell? f.demanded = some v) : ¬ m.Falters e := by
  rintro ⟨-, f', frames', hf', he⟩
  obtain ⟨rfl, -⟩ := List.cons.inj (hf.symm.trans hf')
  obtain ⟨-, hc', -⟩ | ⟨action, steps, ht', -⟩ := he
  · cases hc.symm.trans hc'
  · cases ht.symm.trans ht'

end Sound

theorem Tells.of_cons {event : Event} {m : Machine} (h : (m.tell event).Tells e)
    (hn : ∀ who d into, event ≠ .did who (.demand d into) (.error (.graph e))) : m.Tells e := by
  obtain ⟨who, d, into, h⟩ := h
  exact ⟨who, d, into, (List.mem_cons.mp h).resolve_left fun e => hn who d into e.symm⟩

theorem Tells.of_setTask {t : Task} (h : (m.setTask t).Tells e) : m.Tells e := by
  obtain ⟨w, base, frames, control, trace⟩ := m
  cases frames <;> exact h

theorem Tells.of_tellAll {records : List Record} (h : (m.tellAll records).Tells e) : m.Tells e := by
  obtain ⟨who, d, into, h⟩ := h
  exact ⟨who, d, into, by simpa [tellAll_eq] using h⟩

theorem target_of_begin_error {scope : Scope} {w : Workspace} {d : Demand} {into : Option String}
    {err : StepError} (h : (Action.demand d into).begin scope w = .error err) :
    d.target scope w = .error err := by
  cases ht : d.target scope w with
  | error err' => simpa [Action.begin, ht, bind, Except.bind] using h
  | ok r =>
    rcases r with ⟨_ | s, holding⟩ <;>
      simp [Action.begin, ht, bind, Except.bind, pure, Except.pure] at h

/-- A step that succeeds returns no error. -/
theorem Failed.of_conclude_ok {action : Action} {attempt : Bool} {reply : Reply}
    (h : (m.conclude action attempt (.ok reply)).Failed e) : m.Tells e := by
  rw [conclude_ok] at h
  rcases h with h | h
  · cases h
  · exact Tells.of_cons (m := m) h fun _ _ _ e => by cases e

/-- A step that is refused returns its own error, if it is a read or ends its compute. -/
theorem Failed.of_conclude_error {action : Action} {attempt : Bool} {err : StepError}
    (h : (m.conclude action attempt (.error err)).Failed e) :
    m.Tells e ∨ err = .graph e ∧ ((∃ d into, action = .demand d into) ∨
      attempt = false ∧ ∃ f frames, m.frames = f :: frames) := by
  have htell (who : Option NodeId)
      (h : Machine.Tells { m with trace := .did who action (.error err) :: m.trace } e) :
      m.Tells e ∨ err = .graph e ∧ ((∃ d into, action = .demand d into) ∨
        attempt = false ∧ ∃ f frames, m.frames = f :: frames) := by
    obtain ⟨who, d, into, h⟩ := h
    rcases List.mem_cons.mp h with h | h
    · cases h
      exact .inr ⟨rfl, .inl ⟨d, into, rfl⟩⟩
    · exact .inl ⟨who, d, into, h⟩
  obtain hc | ⟨ha, err', f, frames, rfl, hf, hc⟩ := conclude_error (m := m) action attempt err
  · rw [hc] at h
    exact htell _ (h.resolve_left nofun)
  · rw [hc] at h
    rcases h with h | h
    · cases h
      exact .inr ⟨rfl, .inr ⟨ha, f, frames, hf⟩⟩
    · exact htell _ h

/-- A read that begins is answered with an error, or no error is returned. -/
theorem Failed.of_demand {s : Socket} (h : (m.demand s).Failed e) :
    m.Tells e ∨ m.graph.answer? s = some (.error e) := by
  unfold demand at h
  unfold Graph.answer?
  revert h
  -- The cases follow the read: a value, a dead owner, an owner that computes, and a new compute.
  cases m.graph.cell? s with
  | some v =>
    rintro (h | h)
    · cases h
    · exact .inl (Tells.of_cons (m := m) h nofun)
  | none =>
    cases m.graph.alive s.owner with
    | false =>
      rintro (h | h)
      · cases h; exact .inr rfl
      · exact .inl h
    | true =>
      cases m.graph.computing s.owner with
      | true =>
        rintro (h | h)
        · cases h; exact .inr rfl
        · exact .inl (Tells.of_cons (m := m) h nofun)
      | false =>
        rintro (h | h)
        · cases h
        · exact .inl (Tells.of_cons (m := m) (Tells.of_cons (m := m.tell _) h nofun) nofun)

/-- A compute that is over returns an error if its socket is unset. -/
theorem Failed.of_complete {f : Frame} {frames : List Frame} (h : (m.complete f frames).Failed e) :
    m.Tells e ∨ m.graph.cell? f.demanded = none ∧ e = .invariantViolation f.demanded := by
  unfold complete at h
  simp only [graph_tell] at h
  revert h
  cases m.graph.cell? f.demanded with
  | some v =>
    rintro (h | h)
    · cases h
    · exact .inl (Tells.of_cons (m := m) h fun _ _ _ e => by cases e)
  | none =>
    rintro (h | h)
    · cases h
      exact .inr ⟨rfl, rfl⟩
    · have h := Tells.of_cons (m := m.tell _) h fun _ _ _ e => by cases e
      exact .inl (Tells.of_cons (m := m) h fun _ _ _ e => by cases e)

/-- The step that begins is refused, or a read of it is. -/
theorem Failed.of_perform {action : Action} {attempt : Bool} {rest : List Instr}
    (hr : m.control = .running) (ht : m.task.todo = .act action attempt :: rest)
    (h : (m.perform action attempt).Failed e) : m.Failed e ∨ m.Refuses e ∨ m.Falters e := by
  unfold perform at h
  cases hb : action.begin m.scope m.workspace with
  | error err =>
    rw [hb] at h
    obtain h | ⟨rfl, hwhy⟩ := h.of_conclude_error
    · exact .inl (.inr h)
    -- A refused read is an error by itself, any other refused step only if it ends its compute.
    · by_cases hd : ∃ d into, action = .demand d into
      · obtain ⟨d, into, rfl⟩ := hd
        exact .inr (.inl ⟨hr, d, into, attempt, rest, ht, .inl (target_of_begin_error hb)⟩)
      · obtain ⟨rfl, f, frames, hf⟩ := hwhy.resolve_left hd
        rw [task_of_cons hf] at ht
        exact .inr (.inr ⟨hr, f, frames, hf, .inr ⟨action, rest, ht,
          fun d into e => hd ⟨d, into, e⟩, hb⟩⟩)
  | ok progress =>
    rw [hb] at h
    cases progress with
    | done reply w records =>
      exact .inl (.inr (Tells.of_tellAll (m := { m with workspace := w }) h.of_conclude_ok))
    | demand s holding =>
      obtain ⟨hr, d, into, attempt, rest, ht, htarget⟩ := demands_of_begin hr ht hb
      obtain h | ha := h.of_demand
      · exact .inl (.inr h.of_setTask)
      · have ha' : m.graph.answer? s = some (.error e) := by simpa using ha
        exact .inr (.inl ⟨hr, d, into, attempt, rest, ht, .inr ⟨s, holding, htarget, ha'⟩⟩)

/-- An error of a read is one of before, or a read is refused, or a compute fails. -/
theorem failed_move (h : m.move.Failed e) : m.Failed e ∨ m.Refuses e ∨ m.Falters e := by
  cases hc : m.control with
  | returned outcome =>
    simp only [move, hc, Failed.settle, resume] at h
    -- An outcome on its way is handed on as it is, so there is no new error at such a move.
    refine .inl ?_
    split at h
    · next action attempt rest ht =>
      cases outcome with
      | ok v =>
        obtain ⟨t, hk⟩ := exists_keep (m := m) action v
        exact .inr (Tells.of_setTask (hk ▸ h.of_conclude_ok))
      | error err =>
        obtain h | ⟨he, -⟩ := h.of_conclude_error
        · exact .inr h
        · cases he; exact .inl hc
    · rcases h with h | h
      · cases h
      · exact .inr (Tells.of_setTask h)
  | running =>
    simp only [move, hc, Failed.settle, advance] at h
    split at h
    · next action attempt rest ht => exact h.of_perform hc ht
    · rcases h with h | h
      · rw [m.setTask_of_running _ hc] at h; cases h
      · exact .inl (.inr h.of_setTask)
    · next ht =>
      cases hf : m.frames with
      | nil => rw [hf] at h; exact .inl h
      | cons f frames =>
        rw [hf] at h
        rw [task_of_cons hf] at ht
        obtain h | ⟨hcell, he⟩ := h.of_complete
        · exact .inl (.inr h)
        · exact .inr (.inr ⟨hc, f, frames, hf, .inl ⟨ht, hcell, he⟩⟩)

/-- What is true of the errors so far and, while it is true of them, of refusals and of failures of
computes is true of all errors of reads. -/
theorem Leads.failed {p : Machine → Prop} {Q : GraphError → Prop} (h : Leads p m m')
    (hm : ∀ e, m.Failed e → Q e)
    (hq : ∀ n, Leads p m n → p n → (∀ e, n.Failed e → Q e) → ∀ e, n.Refuses e ∨ n.Falters e → Q e) :
    ∀ e, m'.Failed e → Q e := by
  induction h with
  | refl => exact hm
  | @move m m' hp _ ih =>
    refine ih (fun e he => ?_) fun n hn => hq n (.move hp hn)
    obtain he | he := failed_move he
    · exact hm e he
    · exact hq m (.refl m) hp hm e he

end Machine

end PullGraph

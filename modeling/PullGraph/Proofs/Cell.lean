import PullGraph.Proofs.Wiring

/-!
# Cells

A cell holds what its owner wrote last, and nothing else ever changes it.

* `writes`: the writes that were made in a run. `Turn.cell?_eq` says what one turn makes of a cell,
  and `Run.cell?_eq` what a run makes of it.
* `Machine.Reads.cell?_eq`: where a read yields a value, the cell holds it.
* `Run.recorded`: the whole history of the cells, with the refusal of foreign writes.
-/

namespace PullGraph

/-- The writes that were made in a run, the latest first. -/
def writes (past : List Machine) : List Write := past.filterMap Machine.write?

theorem writes_cons_none {past : List Machine} {m : Machine} (h : m.write? = none) :
    writes (m :: past) = writes past := List.filterMap_cons_none h

theorem writes_cons_some {past : List Machine} {m : Machine} {write : Write}
    (h : m.write? = some write) : writes (m :: past) = write :: writes past :=
  List.filterMap_cons_some h

/-- An owner's write to the socket. -/
def Write.Fills (write : Write) (s : Socket) : Prop := write.socket = s ∧ write.Own

instance (write : Write) (s : Socket) : Decidable (write.Fills s) :=
  inferInstanceAs (Decidable (_ ∧ _))

/-! ## One change -/

theorem Graph.state_eq_valid {g : Graph} {s : Socket} :
    g.state s = .valid ↔ (g.cell? s).isSome = true := by
  unfold state
  split
  · next hc => simp [hc]
  · next hc => split <;> simp [hc]

theorem Graph.cell?_push {g : Graph} {node : Option Node} {s : Socket}
    (h : ∀ n, node = some n → ∃ names, n.outputs = .unset names) :
    (g.push node).cell? s = g.cell? s := by
  simp only [cell?, node?_push]
  split
  · next e =>
    rw [e, node?_nextId]
    cases node with
    | none => rfl
    | some n =>
      obtain ⟨names, hn⟩ := h n rfl
      simp [hn]
  · rfl

/-- What a write makes of a cell that holds `old`. -/
def refill (write : Option Write) (s : Socket) (old : Option Value) : Option Value :=
  match write with
  | some w => if w.Fills s then some w.value else old
  | none => old

/-- A change fills the cell that its write is for, and no other. -/
theorem Effect.cell?_eq {scope : Scope} {w w' : Workspace} {write : Option Write}
    (h : Effect scope w write w') (hw : w.Wired) (s : Socket) :
    w'.graph.cell? s = refill write s (w.graph.cell? s) := by
  cases h with
  | refused hn => exact (if_neg fun hf => hn hf.2).symm
  | @filled write ho hk =>
    change (w.graph.fill write.socket write.value).cell? s = if write.Fills s then _ else _
    rw [w.graph.cell?_fill _ (hw.declares_of_knows hk)]
    by_cases hs : s = write.socket
    · rw [if_pos hs, if_pos ⟨hs.symm, ho⟩]
    · rw [if_neg hs, if_neg fun hf => hs hf.1.symm]
  | bound => exact Graph.cell?_rewire _ _ _ _
  | created | numbered => exact Graph.cell?_push fun n e => by cases e <;> exact ⟨_, rfl⟩
  | _ => rfl

/-! ## One move -/

namespace Machine

variable {m m' : Machine} {s : Socket}

theorem Turn.cell?_eq (h : Turn m m') (hw : m.workspace.Wired) (s : Socket) :
    m'.graph.cell? s = refill m.write? s (m.graph.cell? s) := by
  obtain ⟨-, he⟩ | ⟨t, holding, hd, -, -, e⟩ | ⟨t, -, e, hn⟩ := h.workspace_cases
  · exact he.cell?_eq hw s
  · rw [write?_of_demands hd, graph, e]
    exact Graph.cell?_enter _ _ _
  · have hc : m'.graph.cell? s = m.graph.cell? s := by
      rw [graph, e]
      exact Graph.cell?_leave _ _ _
    cases hm : m.write? with
    | none => exact hc
    | some write => rw [hc, refill, if_neg fun hf => hn write hm hf.2]

theorem cell?_move (hw : m.workspace.Wired) (s : Socket) :
    m.move.graph.cell? s = refill m.write? s (m.graph.cell? s) := by
  obtain ⟨m', ht, e⟩ := exists_turn m
  rw [e, graph_settle, Graph.cell?_release, ht.cell?_eq hw]

/-- A foreign write is refused. -/
theorem move_of_foreign {write : Write} (h : m.write? = some write) (hf : ¬ write.Own) :
    ∃ action attempt rest, m.task.todo = .act action attempt :: rest ∧
      m.move = (m.conclude action attempt (.error
        (.graph (.ownershipViolation write.socket write.writer)))).settle := by
  unfold write? at h
  split at h
  · next e attempt rest hr ht =>
    refine ⟨.edit e, attempt, rest, ht, move_of_error hr ht ?_⟩
    simp only [Action.begin, Edit.apply_of_foreign h hf]
    rfl
  · cases h

end Machine

/-! ## Reads -/

namespace Machine

variable {past : List Machine} {m m' n : Machine} {s : Socket} {v : Value}

theorem length_wanted : m.wanted.length = m.frames.length := by simp [wanted]

/-- A compute that ends with a value leaves it in the cell that it was started for. -/
theorem cell?_of_leave {t : Machine} (h : Run past n) (ht : Turn n t) (hw : n.wanted = s :: t.wanted)
    (hc : t.control = .returned (.ok v)) : n.move.graph.cell? s = some v := by
  obtain e | ⟨u, e, -⟩ | ⟨u, outcome, e, ho, hv⟩ := ht.wanted_cases
  · rw [e] at hw; exact absurd (congrArg List.length hw) (by simp)
  · rw [e] at hw; exact absurd (congrArg List.length hw) (by simp; omega)
  · obtain ⟨rfl, -⟩ := List.cons.inj (e.symm.trans hw)
    obtain rfl : outcome = .ok v := Control.returned.inj (ho.symm.trans hc)
    obtain ⟨-, htodo, hv⟩ := hv v rfl
    have hn : n.write? = none := by
      unfold write?
      rw [htodo]
      split
      · next e => cases e
      · rfl
    rw [cell?_move (wired h), hn]
    exact hv

theorem Leads.cell?_eq (inner outer : List Socket) (h : Run past n)
    (hl : Leads (fun n => outer.length < n.frames.length) n m') (hn : n.wanted = inner ++ s :: outer)
    (hm : m'.frames.length = outer.length) (hc : m'.control = .returned (.ok v)) :
    m'.graph.cell? s = some v := by
  -- `inner` are the sockets of the computes started since, which are over before that of `s`.
  induction hl generalizing past inner with
  | refl n =>
    have hlen := congrArg List.length hn
    rw [length_wanted, List.length_append, List.length_cons] at hlen
    omega
  | @move n m' _ hl ih =>
    obtain ⟨t, ht, e⟩ := exists_turn n
    have hw : n.move.wanted = t.wanted := by rw [e, wanted_settle]
    obtain hs | ⟨u, hs, -⟩ | ⟨u, outcome, hs, -⟩ := ht.wanted_cases
    · exact ih inner h.move (by rw [hw, hs, hn]) hm hc
    · exact ih (u :: inner) h.move (by rw [hw, hs, hn]; rfl) hm hc
    · rw [hn] at hs
      cases inner with
      | cons x inner => exact ih inner h.move (hw.trans (List.cons.inj hs).2.symm) hm hc
      | nil =>
        -- The compute that ends is the one that was started for `s`, and so is the read.
        obtain ⟨-, ho⟩ := List.cons.inj hs
        obtain rfl := hl.eq_of_not (by
          rw [← length_wanted, hw, ← ho]
          exact Nat.lt_irrefl _)
        exact cell?_of_leave h ht (by rw [hn, ← ho]; rfl) (by rw [← hc, e, control_settle])

/-- Where a read yields a value, the cell holds it. -/
theorem Reads.cell?_eq (h : Run past m) (hr : m.Reads s (.ok v) m') : m'.graph.cell? s = some v := by
  obtain ⟨holding, hd⟩ := hr.demands
  cases ha : m.graph.answer? s with
  | some outcome =>
    obtain ⟨trace, e⟩ := h.move_of_answer hd ha
    obtain rfl := hr.leads.eq_of_not (by
      simp [e])
    obtain rfl : outcome = .ok v := by
      have hc := hr.control_eq
      rw [e] at hc
      exact Control.returned.inj hc
    rw [cell?_move (wired h), write?_of_demands hd]
    exact Graph.cell?_of_answer? ha
  | none =>
    have hw : m.move.wanted = s :: m.wanted := by
      rw [move_of_demands hd, demand_of_no_answer (by simpa using ha), wanted_settle, wanted_enter,
        wanted_setTask]
    have hlen := length_wanted (m := m)
    refine Leads.cell?_eq [] m.wanted h.move ?_ hw ?_ hr.control_eq
    · rw [hlen]; exact hr.leads
    · rw [hlen, hr.length_eq]

/-- It still does when the read is concluded. -/
theorem Reads.cell?_move (h : Run past m) (hr : m.Reads s (.ok v) m') :
    m'.move.graph.cell? s = some v := by
  obtain ⟨past', hm', -⟩ := h.move.leads hr.leads
  rw [Machine.cell?_move (wired hm'), write?_of_returned hr.control_eq]
  exact hr.cell?_eq h

end Machine

/-! ## Histories -/

open Machine

variable {past : List Machine} {m : Machine}

/-- A cell holds what its owner wrote last. -/
theorem Run.cell?_eq (h : Run past m) (s : Socket) :
    m.graph.cell? s = ((writes past).find? fun write => write.Fills s).map (·.value) := by
  induction h with
  | start => rfl
  | @move past m h ih =>
    rw [cell?_move (wired h), ih]
    cases hw : m.write? with
    | none => rw [writes_cons_none hw]; rfl
    | some write =>
      rw [writes_cons_some hw, List.find?_cons, refill]
      by_cases hf : write.Fills s <;> simp [hf]
  | @load past m action _ hi ih =>
    rw [writes_cons_none (write?_of_idle hi)]
    exact ih

/-- A cell is filled when its owner first writes it. -/
theorem Run.valid_iff (h : Run past m) (s : Socket) :
    m.graph.state s = .valid ↔ ∃ write ∈ writes past, write.Fills s := by
  rw [Graph.state_eq_valid, h.cell?_eq, Option.isSome_map, List.find?_isSome]
  simp

theorem Run.valid_of_valid (h : Run past m) {s : Socket} {earlier : Machine} (he : earlier ∈ past)
    (hv : earlier.graph.state s = .valid) : m.graph.state s = .valid := by
  obtain ⟨before, hb, hs⟩ := h.of_mem he
  obtain ⟨write, hw, hf⟩ := (hb.valid_iff s).mp hv
  exact (h.valid_iff s).mpr ⟨write, (hs.filterMap _).subset hw, hf⟩

/-- At a moment of a run the cells hold what the writes of their owners made of them. -/
structure Recorded (past : List Machine) (m : Machine) : Prop where
  cell?_eq : ∀ s,
    m.graph.cell? s = ((writes past).find? fun write => write.Fills s).map (·.value)
  valid_iff : ∀ s, m.graph.state s = .valid ↔ ∃ write ∈ writes past, write.Fills s
  /-- What is valid stays valid. -/
  valid : ∀ s, ∀ earlier ∈ past, earlier.graph.state s = .valid → m.graph.state s = .valid
  /-- A foreign write is refused and does nothing, in every state of the socket; where it was no
  attempt, the compute that it is part of ends for it. -/
  foreign : ∀ write, m.write? = some write → ¬ write.Own →
    ∃ action attempt rest, m.task.todo = .act action attempt :: rest ∧
      m.move = (m.conclude action attempt (.error
        (.graph (.ownershipViolation write.socket write.writer)))).settle ∧
      (m.move.workspace = m.workspace ∨ attempt = false ∧ ∃ f frames trace, m.frames = f :: frames ∧
        m.move = { m with
          workspace := m.workspace.setGraph (m.graph.leave f.node), frames := frames,
          control := .returned (.error (.ownershipViolation write.socket write.writer)),
          trace := trace }.settle)
  /-- Nothing but a write of the owner changes a cell. -/
  kept : ∀ s, (∀ write, m.write? = some write → ¬ write.Fills s) →
    m.move.graph.cell? s = m.graph.cell? s
  /-- The value that a read yields is in the cell, -/
  reads : ∀ s v m', m.Reads s (.ok v) m' →
    m'.graph.cell? s = some v ∧ m'.move.graph.cell? s = some v
  /-- and whoever reads a value that is in the cell gets it at once, without a change. -/
  served : ∀ s v holding, m.Demands s holding → m.graph.cell? s = some v →
    m.move.control = .returned (.ok v) ∧ m.move.workspace = m.workspace ∧ m.move.stack = m.stack

/-- The history of the cells, at every moment of every run. -/
theorem Run.recorded (h : Run past m) : Recorded past m where
  cell?_eq := h.cell?_eq
  valid_iff := h.valid_iff
  valid s earlier he hv := h.valid_of_valid he hv
  foreign write hw hf := by
    obtain ⟨action, attempt, rest, ht, hm⟩ := move_of_foreign hw hf
    refine ⟨action, attempt, rest, ht, hm, ?_⟩
    have hr : m.control = .running := by
      cases hc : m.control with
      | running => rfl
      | returned outcome => rw [write?_of_returned hc] at hw; cases hw
    -- The refusal is dropped with its step, or it ends the compute. Neither way touches a cell.
    obtain hc | ⟨ha, err, f, frames, he, hf, hc⟩ := conclude_error (m := m) action attempt
      (.graph (.ownershipViolation write.socket write.writer))
    · rw [hm, hc, h.settle_setTask hr]
      exact .inl (m.workspace_setTask _)
    · cases he
      exact .inr ⟨ha, f, frames, _, hf, hm.trans (congrArg Machine.settle hc)⟩
  kept s hn := by
    rw [cell?_move (wired h)]
    cases hw : m.write? with
    | none => rfl
    | some write => exact if_neg (hn write hw)
  reads s v m' hr := ⟨hr.cell?_eq h, hr.cell?_move h⟩
  served s v holding hd hc := by
    have ha : m.graph.answer? s = some (.ok v) := by simp [Graph.answer?, hc]
    obtain ⟨trace, e⟩ := h.move_of_answer hd ha
    rw [e]
    exact ⟨rfl, m.workspace_setTask _, m.stack_setTask _⟩

/-- A constant that was read is in its cell. -/
theorem Run.recorded_constant :
    ∃ past m, Run past m ∧ Recorded past m ∧
      writes past = [⟨⟨⟨0⟩, "v"⟩, ⟨0⟩, .ofInt 5⟩] ∧ m.graph.cell? ⟨⟨0⟩, "v"⟩ = some (.ofInt 5) := by
  have created := Run.start.load (.edit (.create "n" .identifier (.value (.ofInt 5)))) rfl
  have reading := created.move.load (.demand (.output (.label "n") "v") none) rfl
  exact ⟨_, _, reading.move.move, reading.move.move.recorded, rfl, rfl⟩

end PullGraph

import PullGraph.Proofs.Exec
import PullGraph.Proofs.Stack

/-!
# Reads that come to an end

A read goes into a compute, and the reads of that one go into further computes. No node computes
twice at a time, so as long as no node comes to life there is an end to going deeper: each level
leaves fewer living nodes that are not computing. At each level there is an end to the steps.

* `Machine.spare`: how many living nodes are not computing.
* `Machine.Barren`: no node comes to life while a read is under way.
* `Machine.Returns`: the innermost compute is over at some time, and its read has an outcome.
* `Machine.returns_of_barren`: so it is for every compute. The induction is on the spare nodes, and
  for each number of them on the steps that are left.
* `Machine.Demands.exists_reads`: so every read has an outcome.
-/

namespace PullGraph

namespace Machine

variable {past : List Machine} {m n k : Machine} {depth depth' : Nat} {id : NodeId}

/-! ## Spare nodes -/

/-- How many living nodes are not computing. -/
def spare (m : Machine) : Nat := (m.graph.living.filter (· ∉ m.stack)).length

theorem length_off_path_le {g g' : Graph} {path : List NodeId}
    (ha : ∀ id, g'.alive id = true → g.alive id = true) :
    (g'.living.filter (· ∉ path)).length ≤ (g.living.filter (· ∉ path)).length :=
  Graph.length_filter_living_le fun id hid hp => ⟨ha id hid, hp⟩

theorem spare_le (ha : ∀ id, n.graph.alive id = true → m.graph.alive id = true)
    (hs : n.stack = m.stack) : n.spare ≤ m.spare := by
  rw [spare, spare, hs]
  exact length_off_path_le ha

/-- A node that starts to compute is no longer spare. -/
theorem spare_lt (ha : ∀ id, n.graph.alive id = true → m.graph.alive id = true)
    (hs : n.stack = id :: m.stack) (hid : m.graph.alive id = true) (hn : id ∉ m.stack) :
    n.spare < m.spare := by
  rw [spare, spare, hs]
  exact Nat.lt_of_le_of_lt (length_off_path_le ha) (m.graph.length_off_path_lt hid hn)

/-! ## No node comes to life -/

/-- No node comes to life while more than `depth` computes are in progress from here on. -/
def Barren (m : Machine) (depth : Nat) : Prop :=
  ∀ k, Leads (fun n => depth < n.frames.length) m k → depth < k.frames.length →
    ∀ id, k.move.graph.alive id = true → k.graph.alive id = true

namespace Barren

theorem leads (h : m.Barren depth) (hl : Leads (fun n => depth < n.frames.length) m n) :
    n.Barren depth := fun k hk => h k (hl.trans hk)

theorem mono (h : m.Barren depth) (hd : depth ≤ depth') : m.Barren depth' := fun k hk hlt =>
  h k (hk.mono fun _ hn => Nat.lt_of_le_of_lt hd hn) (Nat.lt_of_le_of_lt hd hlt)

/-- What is alive later was alive before. -/
theorem alive_of_leads (h : m.Barren depth) (hl : Leads (fun n => depth < n.frames.length) m k)
    (ha : k.graph.alive id = true) : m.graph.alive id = true := by
  induction hl with
  | refl => exact ha
  | @move m k hm _ ih => exact h m (.refl m) hm id (ih (h.leads (.move hm (.refl _))) ha)

end Barren

/-! ## The end of a compute -/

/-- At some time no more than `depth` computes are in progress, and the read that started the last
one of the others has an outcome. -/
def Returns (m : Machine) (depth : Nat) : Prop :=
  ∃ outcome k, Leads (fun n => depth < n.frames.length) m k ∧ k.frames.length = depth ∧
    k.control = .returned outcome

theorem Returns.of_leads (hl : Leads (fun n => depth < n.frames.length) m n) (h : n.Returns depth) :
    m.Returns depth := by
  obtain ⟨outcome, k, hk, hr⟩ := h
  exact ⟨outcome, k, hl.trans hk, hr⟩

/-- A step that is concluded leaves the rest of its task, or ends the compute that it is part of. -/
theorem conclude_cases (hf : m.frames.length = depth + 1) (action : Action) (attempt : Bool)
    (result : Result) :
    ((m.conclude action attempt result).settle.control = .running ∧
      (m.conclude action attempt result).settle.frames.length = depth + 1 ∧
      (m.conclude action attempt result).settle.stack = m.stack ∧
      (m.conclude action attempt result).settle.task.todo = m.task.todo.tail) ∨
    ((m.conclude action attempt result).settle.frames.length = depth ∧
      ∃ outcome, (m.conclude action attempt result).settle.control = .returned outcome) := by
  have hnext (trace : List Event) :
      { m.setTask { m.task with todo := m.task.todo.tail, holding := none } with
        control := .running, trace := trace }.settle.task.todo = m.task.todo.tail := by
    change (m.setTask _).task.todo = _
    rw [task_setTask]
  cases result with
  | ok reply =>
    rw [conclude_ok]
    exact .inl ⟨rfl, (m.length_frames_setTask _).trans hf, m.stack_setTask _, hnext _⟩
  | error e =>
    obtain hc | ⟨-, err, f, rest, -, hrest, hc⟩ := conclude_error (m := m) action attempt e
    · rw [hc]
      exact .inl ⟨rfl, (m.length_frames_setTask _).trans hf, m.stack_setTask _, hnext _⟩
    · rw [hc]
      rw [hrest] at hf
      exact .inr ⟨Nat.succ.inj hf, _, rfl⟩

/-- A read that has its outcome is concluded by the next move, with the same steps left. -/
theorem exists_conclude_of_returned {outcome : Except GraphError Value} {action : Action}
    {attempt : Bool} {rest : List Instr} (hc : m.control = .returned outcome)
    (ht : m.task.todo = .act action attempt :: rest) :
    ∃ (last : Machine) (result : Result), m.move = (last.conclude action attempt result).settle ∧
      last.frames.length = m.frames.length ∧ last.stack = m.stack ∧
        last.task.todo = m.task.todo := by
  cases outcome with
  | error e => exact ⟨m, _, move_of_failure hc ht, rfl, rfl, rfl⟩
  | ok v =>
    obtain ⟨t, hk⟩ := exists_keep (m := m) action v
    refine ⟨m.keep action v, _, move_of_value hc ht, ?_, ?_, m.todo_keep action v⟩
    · rw [hk, length_frames_setTask]
    · rw [hk, stack_setTask]

/-- A step that reads no socket is concluded by the next move, with the same steps left. -/
theorem exists_conclude_of_begin {action : Action} {attempt : Bool} {rest : List Instr}
    (hr : m.control = .running) (ht : m.task.todo = .act action attempt :: rest)
    (hb : ∀ s holding, action.begin m.scope m.workspace ≠ .ok (.demand s holding)) :
    ∃ (last : Machine) (result : Result), m.move = (last.conclude action attempt result).settle ∧
      last.frames.length = m.frames.length ∧ last.stack = m.stack ∧
        last.task.todo = m.task.todo := by
  cases e : action.begin m.scope m.workspace with
  | error err => exact ⟨m, _, move_of_error hr ht e, rfl, rfl, rfl⟩
  | ok progress =>
    cases progress with
    | demand s holding => exact absurd e (hb s holding)
    | done reply w records =>
      refine ⟨_, _, move_of_done hr ht e, ?_, ?_, ?_⟩
      · rw [tellAll_eq]
      · rw [tellAll_eq]; rfl
      · rw [tellAll_eq]; rfl

/-- A read has an outcome if the compute that it starts is over at some time. -/
theorem Demands.exists_reads_of_returns (h : Run past m) {s : Socket} {holding : Option NodeId}
    (hd : m.Demands s holding)
    (hret : m.graph.answer? s = none → m.move.Returns m.frames.length) :
    ∃ outcome k, m.Reads s outcome k := by
  cases ha : m.graph.answer? s with
  | some outcome =>
    obtain ⟨trace, e⟩ := h.move_of_answer hd ha
    refine ⟨outcome, m.move, ⟨holding, hd⟩, .refl _, ?_, by rw [e]⟩
    rw [e]
    exact m.length_frames_setTask _
  | none =>
    obtain ⟨outcome, k, hl, hlen, hc⟩ := hret ha
    exact ⟨outcome, k, ⟨holding, hd⟩, hl, hlen, hc⟩

/-- The compute that a read starts. -/
theorem Demands.move_of_no_answer {s : Socket} {holding : Option NodeId} (hd : m.Demands s holding)
    (ha : m.graph.answer? s = none) :
    m.move.control = .running ∧ m.move.frames.length = m.frames.length + 1 ∧
      m.move.stack = s.owner :: m.stack := by
  rw [move_of_demands hd, demand_of_no_answer (by simpa using ha)]
  refine ⟨rfl, ?_, ?_⟩
  · exact congrArg Nat.succ (m.length_frames_setTask _)
  · exact congrArg (List.cons s.owner) (m.stack_setTask _)

section Steps

variable {action : Action} {attempt : Bool} {rest : List Instr}

/-- A step at the head of a compute is over at some time: then the rest of the steps are left, and
no more nodes are spare, or the compute is over. -/
theorem exists_concluded (h : Run past m) (hr : m.control = .running)
    (hf : m.frames.length = depth + 1) (hb : m.Barren depth)
    (ht : m.task.todo = .act action attempt :: rest)
    (hdeep : ∀ k, Run (m :: past) k → k.control = .running → k.frames.length = depth + 2 →
      k.Barren (depth + 1) → k.spare < m.spare → k.Returns (depth + 1)) :
    m.Returns depth ∨ ∃ past' k, Run past' k ∧ Leads (fun n => depth < n.frames.length) m k ∧
      k.control = .running ∧ k.frames.length = depth + 1 ∧ k.spare ≤ m.spare ∧
        k.task.todo = rest := by
  have hm : depth < m.frames.length := by omega
  -- It is enough to come to a moment from which the next move concludes the step.
  have hlast {n last : Machine} {result : Result}
      (hl : Leads (fun n => depth < n.frames.length) m n) (hn : n.frames.length = depth + 1)
      (hmove : n.move = (last.conclude action attempt result).settle)
      (hlen : last.frames.length = n.frames.length) (hstack : last.stack = m.stack)
      (htodo : last.task.todo = m.task.todo) :
      m.Returns depth ∨ ∃ past' k, Run past' k ∧ Leads (fun n => depth < n.frames.length) m k ∧
        k.control = .running ∧ k.frames.length = depth + 1 ∧ k.spare ≤ m.spare ∧
          k.task.todo = rest := by
    have hl' : Leads (fun n => depth < n.frames.length) m n.move :=
      hl.trans (.move (by omega) (.refl _))
    obtain ⟨hc, hfr, hst, htd⟩ | ⟨hfr, outcome, hc⟩ :=
      conclude_cases (hlen.trans hn) action attempt result
    · rw [← hmove] at hc hfr hst htd
      obtain ⟨past', hrun, -⟩ := h.leads hl'
      refine .inr ⟨_, n.move, hrun, hl', hc, hfr, ?_, by rw [htd, htodo, ht, List.tail_cons]⟩
      exact spare_le (fun _ ha => hb.alive_of_leads hl' ha) (hst.trans hstack)
    · rw [← hmove] at hc hfr
      exact .inl ⟨outcome, n.move, hl', hfr, hc⟩
  by_cases hbegin : ∃ s holding, action.begin m.scope m.workspace = .ok (.demand s holding)
  · obtain ⟨s, holding, hbegin⟩ := hbegin
    have hd := demands_of_begin hr ht hbegin
    have hret (ha : m.graph.answer? s = none) : m.move.Returns m.frames.length := by
      obtain ⟨hc, hlen, hst⟩ := hd.move_of_no_answer ha
      obtain ⟨-, hal, hcomp⟩ := Graph.answer?_eq_none_iff.mp ha
      have hnot : s.owner ∉ m.stack := by
        rw [← (mirrored h).computing, hcomp]
        exact Bool.false_ne_true
      have hb' := hb.leads (.move hm (.refl _))
      rw [hf] at hlen ⊢
      refine hdeep m.move h.move hc hlen (hb'.mono (Nat.le_succ _)) ?_
      exact spare_lt (hb m (.refl m) hm) hst hal hnot
    obtain ⟨outcome, n, hreads⟩ := hd.exists_reads_of_returns h hret
    obtain ⟨holding', -, hsame⟩ := hreads.sameTasks
    have htn : n.task.todo = .act action attempt :: rest := by rw [hsame.task_eq, task_setTask, ht]
    obtain ⟨last, result, hmove, hlen, hst, htd⟩ :=
      exists_conclude_of_returned hreads.control_eq htn
    have hl : Leads (fun n => depth < n.frames.length) m n := by
      refine .move hm (hreads.leads.mono fun k hk => ?_)
      exact Nat.lt_trans hm hk
    refine hlast hl (hreads.length_eq.trans hf) hmove hlen ?_ (htd.trans (htn.trans ht.symm))
    rw [hst, hsame.stack_eq, stack_setTask]
  · obtain ⟨last, result, hmove, hlen, hst, htd⟩ :=
      exists_conclude_of_begin hr ht fun s holding e => hbegin ⟨s, holding, e⟩
    exact hlast (.refl m) hf hmove hlen hst htd

end Steps

theorem sizeOf_append (l l' : List Instr) : sizeOf (l ++ l') + 1 = sizeOf l + sizeOf l' := by
  induction l with
  | nil => simp; omega
  | cons i l ih => simp only [List.cons_append, List.cons.sizeOf_spec]; omega

/-- A branch leaves less to do. -/
theorem sizeOf_chosen_lt (register : String) (is : Value) (yes no todo : List Instr) (c : Bool) :
    sizeOf ((if c then yes else no) ++ todo) < sizeOf (Instr.branch register is yes no :: todo) := by
  rw [List.cons.sizeOf_spec, Instr.branch.sizeOf_spec]
  cases c with
  | true =>
    have := sizeOf_append yes todo
    simp only [if_true]
    omega
  | false =>
    have := sizeOf_append no todo
    simp only [Bool.false_eq_true, if_false]
    omega

/-- Where no node comes to life, every compute is over at some time. -/
theorem returns_of_barren (spares : Nat) : ∀ past m depth, Run past m → m.control = .running →
    m.frames.length = depth + 1 → m.Barren depth → m.spare ≤ spares → m.Returns depth := by
  -- Two inductions, one inside the other: one compute further in there are fewer spare nodes, and
  -- at the same depth there are fewer steps left.
  induction spares using Nat.strongRecOn with
  | _ spares ihDeep =>
    intro past m depth h hr hf hb hs
    induction hsize : sizeOf m.task.todo using Nat.strongRecOn generalizing past m with
    | _ size ihStep =>
      have hm : depth < m.frames.length := by omega
      have hl : Leads (fun n => depth < n.frames.length) m m.move := .move hm (.refl _)
      cases ht : m.task.todo with
      | nil =>
        obtain ⟨f, rest, hframes⟩ := List.exists_cons_of_length_eq_add_one hf
        have hmove := move_of_complete hr ht hframes
        obtain ⟨trace, e⟩ := complete_eq (m := m) f rest
        refine ⟨_, m.move, hl, ?_, by rw [hmove, e]; rfl⟩
        rw [hmove, e]
        rw [hframes] at hf
        exact Nat.succ.inj hf
      | cons i rest =>
        cases i with
        | branch register is yes no =>
          have hmove := move_of_branch hr ht
          have htodo : m.move.task.todo =
              (if m.scope.register register == is then yes else no) ++ rest := by
            rw [hmove]
            exact congrArg Task.todo (m.task_setTask _)
          refine Returns.of_leads hl (ihStep _ ?_ _ _ h.move ?_ ?_ (hb.leads hl) ?_ rfl)
          · rw [htodo, ← hsize, ht]
            exact sizeOf_chosen_lt _ _ _ _ _ _
          · rw [hmove, m.setTask_of_running _ hr]
            rfl
          · rw [hmove]
            exact (m.length_frames_setTask _).trans hf
          · refine Nat.le_trans (spare_le (fun _ ha => hb.alive_of_leads hl ha) ?_) hs
            rw [hmove]
            exact m.stack_setTask _
        | act action attempt =>
          obtain hret | ⟨past', k, hrun, hlk, hc, hlen, hspare, htodo⟩ :=
            exists_concluded h hr hf hb ht fun k hk hc hlen hbar hlt =>
              ihDeep k.spare (Nat.lt_of_lt_of_le hlt hs) _ k _ hk hc hlen hbar (Nat.le_refl _)
          · exact hret
          · refine Returns.of_leads hlk
              (ihStep _ ?_ _ _ hrun hc hlen (hb.leads hlk) (Nat.le_trans hspare hs) rfl)
            rw [htodo, ← hsize, ht, List.cons.sizeOf_spec]
            have : 0 < sizeOf (Instr.act action attempt) := by simp
            omega

/-- Where no node comes to life, every read has an outcome. -/
theorem Demands.exists_reads (h : Run past m) {s : Socket} {holding : Option NodeId}
    (hd : m.Demands s holding) (hb : m.move.Barren m.frames.length) :
    ∃ outcome k, m.Reads s outcome k := by
  refine hd.exists_reads_of_returns h fun ha => ?_
  obtain ⟨hc, hlen, -⟩ := hd.move_of_no_answer ha
  exact returns_of_barren _ _ m.move _ h.move hc hlen hb (Nat.le_refl _)

end Machine

end PullGraph

import PullGraph.Naive
import PullGraph.Proofs.Run

/-!
# Steps of a program

A program gives the top level one step at a time, and the step is over when nothing is left to do.

* `Machine.exec_unique`, `Machine.execAll_unique`: what a step or a program comes to does not depend
  on the limit on the moves.
* `Machine.exists_exec_of_conclude`: where the step is concluded it is over with that result.
* `Machine.exists_exec_of_reads`: a read is over with the outcome of its socket.
* `Machine.exists_exec_of_unread`: a read that is about no socket is over at once.
* `Machine.exists_exec_edit`: an edit is over at once, and `Edit.after` is what it leaves behind.
* `Machine.exists_execAll_cons`: a program is over if its first step is and then the rest of it.
-/

namespace PullGraph

/-- At the top level a read is about the same socket whatever the registers hold. -/
theorem Demand.target_of_top {w : Workspace} (d : Demand) {call call' : Nat}
    {registers registers' : Table Value} :
    d.target ⟨none, call, registers⟩ w = d.target ⟨none, call', registers'⟩ w := by
  cases d with
  | socket r => cases r <;> rfl
  | _ => rfl

/-- The workspace after an edit, which is the same as before if the edit is refused. -/
def Edit.after (e : Edit) (scope : Scope) (w : Workspace) : Workspace :=
  match e.apply scope w with
  | .ok (_, w', _) => w'
  | .error _ => w

namespace Machine

variable {m n k : Machine} {action : Action} {attempt : Bool} {result : Result}

/-! ## Limits -/

theorem exec_mono {limit more : Nat} {e : Entry × Machine}
    (h : m.exec limit action = some e) (hmore : limit ≤ more) :
    m.exec more action = some e := by
  obtain ⟨n, hn, h⟩ := Option.bind_eq_some_iff.mp h
  exact Option.bind_eq_some_iff.mpr ⟨n, run_mono hn hmore, h⟩

/-- What a step comes to is a matter of the machine, not of the limit. -/
theorem exec_unique {limit limit' : Nat} {e e' : Entry × Machine}
    (h : m.exec limit action = some e) (h' : m.exec limit' action = some e') : e = e' :=
  Option.some.inj ((exec_mono h (Nat.le_max_left _ _)).symm.trans
    (exec_mono h' (Nat.le_max_right _ _)))

theorem result_eq_of_exec (limit : Nat) {limit' : Nat} {entry : Entry}
    (h : m.exec limit' action = some (entry, n))
    (hr : (m.exec limit action).map (·.1.result) = some result) : entry.result = result := by
  obtain ⟨⟨entry', n'⟩, h', rfl⟩ := Option.map_eq_some_iff.mp hr
  cases exec_unique h h'
  rfl

/-- The entry of a step is what the trace says at its end. -/
theorem entry_eq_of_exec {limit : Nat} {entry : Entry} {action' : Action} {earlier : List Event}
    (h : m.exec limit action = some (entry, n)) (ht : n.trace = .did none action' result :: earlier) :
    entry = ⟨result, earlier.reverse.filter n.graph.reports⟩ := by
  obtain ⟨k, -, h⟩ := Option.bind_eq_some_iff.mp h
  obtain ⟨entry', he, h⟩ := Option.bind_eq_some_iff.mp h
  cases h
  rw [ht] at he
  cases he
  rfl

/-! ## Ends at the top level -/

/-- At the top level a step that is concluded leaves nothing to do. -/
theorem conclude_of_nil (hf : m.frames = []) (ht : m.base.todo.tail = []) (action : Action)
    (attempt : Bool) (result : Result) :
    (m.conclude action attempt result).idle = true ∧
      (m.conclude action attempt result).trace = .did none action result :: m.trace ∧
      (m.conclude action attempt result).settle.workspace = m.workspace.release [] := by
  obtain ⟨w, ⟨call, registers, todo, holding⟩, frames, control, trace⟩ := m
  subst hf
  have e : conclude ⟨w, ⟨call, registers, todo, holding⟩, [], control, trace⟩ action attempt result =
      ⟨w, ⟨call, registers, todo.tail, none⟩, [], .running, .did none action result :: trace⟩ := by
    rcases result with (e | _ | _) | reply <;> cases attempt <;> rfl
  rw [e]
  have ht : todo.tail = [] := ht
  exact ⟨by simp only [idle, ht], rfl, rfl⟩

theorem exists_exec_of_reaches {action' : Action} {earlier : List Event}
    (h : (m.load action).Reaches n) (hi : n.idle = true)
    (ht : n.trace = .did none action' result :: earlier) :
    ∃ entry : Entry, entry.result = result ∧
      ∃ limit, ∀ more, limit ≤ more → m.exec more action = some (entry, n) := by
  obtain ⟨limit, hl⟩ := exists_run h hi
  refine ⟨⟨result, earlier.reverse.filter n.graph.reports⟩, rfl, limit, fun more hmore => ?_⟩
  have he : Entry.ofTrace? n.graph n.trace =
      some ⟨result, earlier.reverse.filter n.graph.reports⟩ := by rw [ht]; rfl
  simp only [exec, hl more hmore, Option.bind_eq_bind, Option.bind_some, he]
  rfl

/-- A step at the top level that comes to be concluded is over with the result. -/
theorem exists_exec_of_conclude (hreach : (m.load action).Reaches n) (hn : n.idle = false)
    (hf : k.frames = []) (ht : k.base.todo.tail = [])
    (hm : n.move = (k.conclude action attempt result).settle) :
    n.move.idle = true ∧ n.move.workspace = k.workspace.release [] ∧
      ∃ entry : Entry, entry.result = result ∧
        ∃ limit, ∀ more, limit ≤ more → m.exec more action = some (entry, n.move) := by
  obtain ⟨hi, htrace, hw⟩ := conclude_of_nil hf ht action attempt result
  have hreach' : (m.load action).Reaches n.move := hreach.trans (.move hn (.refl _))
  rw [hm] at hreach' ⊢
  exact ⟨hi, hw, exists_exec_of_reaches hreach' hi htrace⟩

/-! ## Reads at the top level -/

/-- At the top level the step that waits is concluded with the outcome of its read. -/
theorem exists_conclude_of_returned_top {outcome : Except GraphError Value} (hf : m.frames = [])
    (hc : m.control = .returned outcome) (ht : m.task.todo = [.act action attempt]) :
    ∃ last : Machine, last.frames = [] ∧ last.base.todo.tail = [] ∧
      last.workspace = m.workspace ∧ last.trace = m.trace ∧ m.move = (last.conclude action attempt
        ((StepError.ofGraph outcome).map Reply.value)).settle := by
  have hb : m.base.todo.tail = [] := by rw [← task_of_nil hf, ht, List.tail_cons]
  cases outcome with
  | error e => exact ⟨m, hf, hb, rfl, rfl, move_of_failure hc ht⟩
  | ok v =>
    obtain ⟨t, hk⟩ := exists_keep (m := m) action v
    have hf' : (m.keep action v).frames = [] := by rw [hk, frames_setTask, hf, List.modifyHead_nil]
    refine ⟨m.keep action v, hf', ?_, by rw [hk, workspace_setTask], by rw [hk, trace_setTask],
      move_of_value hc ht⟩
    rw [← task_of_nil hf', todo_keep, ht, List.tail_cons]

/-- A read that a program makes is about the same socket whatever the registers hold. -/
theorem demands_of_load (hi : m.idle = true) {d : Demand} {into : Option String} {s : Socket}
    {holding : Option NodeId} (ht : d.target ⟨none, 0, .empty⟩ m.workspace = .ok (some s, holding)) :
    (m.load (.demand d into)).Demands s holding := by
  obtain ⟨hc, hf, -⟩ := idle_cases hi
  have hf' : (m.load (.demand d into)).frames = [] := hf
  refine ⟨hc, d, into, true, [], ?_, ?_⟩
  · rw [task_of_nil hf']
    rfl
  · rw [scope_of_nil hf']
    exact d.target_of_top.trans ht

section Reads

variable {d : Demand} {into : Option String} {s : Socket} {outcome : Except GraphError Value}
  (hi : m.idle = true) (hr : (m.load (.demand d into)).Reads s outcome n)

include hi hr

/-- A read that a program makes has its outcome at the top level. -/
theorem returned_of_reads : n.frames = [] ∧ n.task.todo = [.act (.demand d into) true] := by
  have hf : (m.load (.demand d into)).frames = [] := (idle_cases hi).2.1
  obtain ⟨holding, hd, hsame⟩ := hr.sameTasks
  refine ⟨List.eq_nil_of_length_eq_zero (by rw [hr.length_eq, hf]; rfl), ?_⟩
  rw [hsame.task_eq, task_setTask, task_of_nil hf]
  rfl

/-- A read that a program makes and that has an outcome is over with it. -/
theorem exists_exec_of_reads :
    (m.load (.demand d into)).Reaches n ∧ n.idle = false ∧
      ∃ entry : Entry, entry.result = (StepError.ofGraph outcome).map Reply.value ∧
        ∃ limit, ∀ more, limit ≤ more → m.exec more (.demand d into) = some (entry, n.move) := by
  obtain ⟨hn, ht⟩ := returned_of_reads hi hr
  obtain ⟨holding, hd⟩ := hr.demands
  have hreach : (m.load (.demand d into)).Reaches n := by
    refine .move hd.idle_eq (hr.leads.mono fun k hk => ?_)
    exact idle_of_frames_ne_nil (List.ne_nil_of_length_pos (Nat.zero_lt_of_lt hk))
  have hni : n.idle = false := by
    unfold idle
    rw [hr.control_eq]
  obtain ⟨last, hf, hb, -, -, hm⟩ := exists_conclude_of_returned_top hn hr.control_eq ht
  obtain ⟨-, -, hexec⟩ := exists_exec_of_conclude hreach hni hf hb hm
  exact ⟨hreach, hni, hexec⟩

/-- Then nothing is left to do, and nothing has changed since the outcome but that nodes have died. -/
theorem move_of_reads : n.move.idle = true ∧ n.move.workspace = n.workspace.release [] := by
  obtain ⟨hreach, hni, -⟩ := exists_exec_of_reads hi hr
  obtain ⟨hn, ht⟩ := returned_of_reads hi hr
  obtain ⟨last, hf, hb, hw, -, hm⟩ := exists_conclude_of_returned_top hn hr.control_eq ht
  obtain ⟨hidle, hwork, -⟩ := exists_exec_of_conclude hreach hni hf hb hm
  exact ⟨hidle, hw ▸ hwork⟩

theorem trace_move_of_reads :
    n.move.trace =
      .did none (.demand d into) ((StepError.ofGraph outcome).map Reply.value) :: n.trace := by
  obtain ⟨hn, ht⟩ := returned_of_reads hi hr
  obtain ⟨last, hf, hb, -, htrace, hm⟩ := exists_conclude_of_returned_top hn hr.control_eq ht
  rw [hm, ← htrace]
  exact (conclude_of_nil hf hb _ _ _).2.1

end Reads

/-- A read that is about no socket is over at once. -/
theorem exists_exec_of_unread (hi : m.idle = true) {d : Demand} (into : Option String)
    (hn : ∀ s holding, d.target ⟨none, 0, .empty⟩ m.workspace ≠ .ok (some s, holding)) :
    (m.load (.demand d into)).move.idle = true ∧
      (m.load (.demand d into)).move.workspace = m.workspace.release [] ∧
      ∃ entry : Entry, entry.result = m.workspace.naiveRead d ∧
        ∃ limit, ∀ more, limit ≤ more →
          m.exec more (.demand d into) = some (entry, (m.load (.demand d into)).move) := by
  obtain ⟨hrun, hf, -⟩ := idle_cases hi
  have hf' : (m.load (.demand d into)).frames = [] := hf
  have ht : (m.load (.demand d into)).task.todo = [.act (.demand d into) true] := by
    rw [task_of_nil hf']
    rfl
  have hni : (m.load (.demand d into)).idle = false := by
    simp only [load, idle, hrun, hf]
  have htop : d.target (m.load (.demand d into)).scope (m.load (.demand d into)).workspace =
      d.target ⟨none, 0, .empty⟩ m.workspace := by
    rw [scope_of_nil hf']
    exact d.target_of_top
  -- The read is refused where it begins, or it is of an optional input without a binding. Both are
  -- over at the first move.
  rcases htarget : d.target ⟨none, 0, .empty⟩ m.workspace with e | ⟨_ | s, held⟩
  · have hb : (Action.demand d into).begin (m.load (.demand d into)).scope
        (m.load (.demand d into)).workspace = .error e := by
      rw [Action.begin, htop, htarget]
      rfl
    have hm := move_of_error (m := m.load (.demand d into)) hrun ht hb
    rw [Workspace.naiveRead_of_error htarget]
    exact exists_exec_of_conclude (k := m.load (.demand d into)) (.refl _) hni hf' rfl hm
  · have hb : (Action.demand d into).begin (m.load (.demand d into)).scope
        (m.load (.demand d into)).workspace = .ok (.done .nothing m.workspace []) := by
      rw [Action.begin, htop, htarget]
      rfl
    have hm := move_of_done (m := m.load (.demand d into)) hrun ht hb
    rw [Workspace.naiveRead_of_none htarget]
    exact exists_exec_of_conclude (k := m.load (.demand d into)) (.refl _) hni hf' rfl hm
  · exact absurd htarget (hn s held)

/-! ## Edits at the top level -/

/-- An edit that a program makes is over at once, and then nodes die that nothing holds. -/
theorem exists_exec_edit (hi : m.idle = true) (e : Edit) :
    ∃ limit entry k, m.exec limit (.edit e) = some (entry, k) ∧
      k.workspace = (e.after (m.load (.edit e)).scope m.workspace).release [] := by
  obtain ⟨hrun, hf, -⟩ := idle_cases hi
  have hf' : (m.load (.edit e)).frames = [] := hf
  have ht : (m.load (.edit e)).task.todo = [.act (.edit e) true] := by
    rw [task_of_nil hf']
    rfl
  have hni : (m.load (.edit e)).idle = false := by
    simp only [load, idle, hrun, hf]
  rw [Edit.after]
  -- The edit is the only step of the program, so its move is the last one, refused or not.
  cases ha : e.apply (m.load (.edit e)).scope m.workspace with
  | error err =>
    have hb : (Action.edit e).begin (m.load (.edit e)).scope m.workspace = .error err := by
      rw [Action.begin, ha]
      rfl
    have hm := move_of_error (m := m.load (.edit e)) hrun ht hb
    obtain ⟨-, hw, entry, -, limit, hexec⟩ := exists_exec_of_conclude (.refl _) hni hf' rfl hm
    exact ⟨limit, entry, _, hexec limit (Nat.le_refl _), hw⟩
  | ok done =>
    obtain ⟨reply, w, records⟩ := done
    have hb : (Action.edit e).begin (m.load (.edit e)).scope m.workspace =
        .ok (.done reply w records) := by
      rw [Action.begin, ha]
      rfl
    have hm := move_of_done (m := m.load (.edit e)) hrun ht hb
    rw [tellAll_eq] at hm
    obtain ⟨-, hw, entry, -, limit, hexec⟩ :=
      exists_exec_of_conclude (.refl _) hni (by exact hf') (by rfl) hm
    exact ⟨limit, entry, _, hexec limit (Nat.le_refl _), hw⟩

theorem workspace_of_exec_edit (hi : m.idle = true) {e : Edit} {limit : Nat} {entry : Entry}
    (hx : m.exec limit (.edit e) = some (entry, k)) :
    k.workspace = (e.after (m.load (.edit e)).scope m.workspace).release [] := by
  obtain ⟨limit', entry', k', hx', hw⟩ := exists_exec_edit hi e
  cases exec_unique hx hx'
  exact hw

/-! ## Steps in a row -/

/-- A program is over if its first step is and then the rest of it. -/
theorem exists_execAll_cons {entry : Entry} {entries : List Entry} {actions : List Action}
    (h : ∃ limit, ∀ more, limit ≤ more → m.exec more action = some (entry, n))
    (h' : ∃ limit, ∀ more, limit ≤ more → n.execAll more actions = some (entries, k)) :
    ∃ limit, ∀ more, limit ≤ more →
      m.execAll more (action :: actions) = some (entry :: entries, k) := by
  obtain ⟨limit, hl⟩ := h
  obtain ⟨limit', hl'⟩ := h'
  refine ⟨max limit limit', fun more hmore => ?_⟩
  have h₁ := hl more (Nat.le_trans (Nat.le_max_left _ _) hmore)
  have h₂ := hl' more (Nat.le_trans (Nat.le_max_right _ _) hmore)
  simp only [execAll, h₁, Option.bind_eq_bind, Option.bind_some, h₂]
  rfl

theorem execAll_mono {limit more : Nat} {actions : List Action} {e : List Entry × Machine}
    (h : m.execAll limit actions = some e) (hmore : limit ≤ more) :
    m.execAll more actions = some e := by
  induction actions generalizing m e with
  | nil => exact h
  | cons action actions ih =>
    obtain ⟨⟨entry, n⟩, hn, h⟩ := Option.bind_eq_some_iff.mp h
    obtain ⟨⟨entries, k⟩, hk, h⟩ := Option.bind_eq_some_iff.mp h
    exact Option.bind_eq_some_iff.mpr ⟨(entry, n), exec_mono hn hmore,
      Option.bind_eq_some_iff.mpr ⟨(entries, k), ih hk, h⟩⟩

/-- What a program comes to is a matter of the machine, not of the limit. -/
theorem execAll_unique (limit : Nat) {limit' : Nat} {actions : List Action}
    {e e' : List Entry × Machine} (h : m.execAll limit' actions = some e)
    (h' : m.execAll limit actions = some e') : e = e' :=
  Option.some.inj ((execAll_mono h (Nat.le_max_left _ _)).symm.trans
    (execAll_mono h' (Nat.le_max_right _ _)))

end Machine

end PullGraph

import PullGraph.Proofs.Binding
import PullGraph.Proofs.Evaluation
import PullGraph.Proofs.Failure

/-!
# Reads on a path of bindings

The read of a socket that depends on nodes with own steps only fills cells, and the computes in
progress follow the bindings that were there when it began.

* `Machine.Pulls`: the invariant of such a read. `Machine.Pulls.move` says that a move keeps it while
  a compute is in progress, and `Machine.pulls_of_load` that it holds from the first move on.
* `Machine.Pulls.exists_feeder`: what is read is bound, and to a living node only by an edge.
* `Machine.exists_reads_of_load`: such a read has an outcome.
-/

namespace PullGraph

open Relation

/-! ## Reads under way -/

namespace Machine

/-- A read is under way that began at the workspace `w₀` and is about a socket of `root`: only cells
were filled since, only own steps are left, and the computes in progress are on a path of bindings
that begins at `root`. -/
structure Pulls (w₀ : Workspace) (root : NodeId) (reads : NodeId → String → Prop) (m : Machine) :
    Prop where
  grows : w₀.Grows m.workspace
  own : ∀ f ∈ m.frames, ∀ i ∈ f.task.todo, i.Own (reads f.node)
  upstream : ∀ id ∈ m.stack, ReflTransGen w₀.graph.Binds root id
  path : m.stack.Pairwise fun id below => ReflTransGen w₀.graph.Binds below id
  base : ∃ action attempt, m.base.todo = [.act action attempt]
  waits : m.frames = [] → ∃ outcome, m.control = .returned outcome

variable {past : List Machine} {m n k : Machine} {w₀ : Workspace} {root : NodeId}
  {reads : NodeId → String → Prop} {f : Frame} {rest : List Frame}

namespace Pulls

/-- While a compute is in progress its task may get other steps of its own. -/
theorem setTask (h : m.Pulls w₀ root reads) (hf : m.frames = f :: rest) {t : Task}
    (ht : ∀ i ∈ t.todo, i.Own (reads f.node)) (c : Control) (trace : List Event) :
    Pulls w₀ root reads { m.setTask t with control := c, trace := trace } := by
  obtain ⟨w, base, frames, control, trace₀⟩ := m
  subst hf
  refine ⟨h.grows, fun f' hf' => ?_, h.upstream, h.path, h.base, nofun⟩
  rcases List.mem_cons.mp hf' with rfl | hf'
  · exact ht
  · exact h.own f' (List.mem_cons_of_mem _ hf')

theorem hold (h : m.Pulls w₀ root reads) (hf : m.frames = f :: rest) (holding : Option NodeId) :
    (m.setTask { m.task with holding := holding }).Pulls w₀ root reads := by
  have ht := task_of_cons hf ▸ h.own f (hf ▸ List.mem_cons_self)
  have hp := h.setTask hf (t := { m.task with holding := holding }) ht m.control m.trace
  obtain ⟨w, base, frames, control, trace⟩ := m
  subst hf
  exact hp

theorem leave (h : m.Pulls w₀ root reads) (hf : m.frames = f :: rest)
    (outcome : Except GraphError Value) (trace : List Event) :
    Pulls w₀ root reads { m with
      workspace := m.workspace.setGraph (m.graph.leave f.node), frames := rest,
      control := .returned outcome, trace := trace } := by
  obtain ⟨w, base, frames, control, trace₀⟩ := m
  subst hf
  exact ⟨h.grows.leave f.node, fun f' hf' => h.own f' (List.mem_cons_of_mem _ hf'),
    fun id hid => h.upstream id (List.mem_cons_of_mem _ hid), h.path.of_cons, h.base,
    fun _ => ⟨outcome, rfl⟩⟩

theorem enter (h : m.Pulls w₀ root reads) (hf : m.frames = f :: rest) {s : Socket}
    (hb : w₀.graph.Binds f.node s.owner)
    (ho : ∀ i ∈ (m.graph.logic s.owner).program (m.graph.calls s.owner + 1),
      i.Own (reads s.owner)) :
    (m.enter s).Pulls w₀ root reads := by
  have hstack := stack_of_cons hf
  have hup := (h.upstream f.node (hstack ▸ List.mem_cons_self)).tail hb
  refine ⟨h.grows.enter s.owner, fun f' hf' => ?_, fun id hid => ?_, ?_, h.base, nofun⟩
  · rcases List.mem_cons.mp hf' with rfl | hf'
    · exact ho
    · exact h.own f' hf'
  · rcases List.mem_cons.mp hid with rfl | hid
    · exact hup
    · exact h.upstream id hid
  · refine List.pairwise_cons.mpr ⟨fun below hbelow => ?_, h.path⟩
    have hpath := hstack ▸ h.path
    have hbelow : below ∈ f.node :: rest.map (·.node) := hstack ▸ hbelow
    rcases List.mem_cons.mp hbelow with rfl | hbelow
    · exact .single hb
    · exact ((List.pairwise_cons.mp hpath).1 below hbelow).tail hb

/-- Cells may be filled. -/
theorem fill (h : m.Pulls w₀ root reads) {w : Workspace} (hw : w₀.Grows w) (records : List Record) :
    ({ m with workspace := w }.tellAll records).Pulls w₀ root reads := by
  rw [tellAll_eq]
  exact ⟨hw, h.own, h.upstream, h.path, h.base, h.waits⟩

theorem keep (h : m.Pulls w₀ root reads) (action : Action) (v : Value) :
    (m.keep action v).Pulls w₀ root reads := by
  obtain ⟨w, base, frames, control, trace⟩ := m
  unfold Machine.keep
  split
  · cases frames with
    | nil => exact ⟨h.grows, h.own, h.upstream, h.path, h.base, h.waits⟩
    | cons f rest =>
      exact h.setTask rfl (t := { f.task with registers := f.task.registers.insert _ v })
        (h.own f List.mem_cons_self) control trace
  · exact h

/-- A step of a compute that is concluded leaves own steps. -/
theorem conclude (h : m.Pulls w₀ root reads) (hne : m.frames ≠ []) (action : Action)
    (attempt : Bool) (result : Result) : (m.conclude action attempt result).Pulls w₀ root reads := by
  obtain ⟨f, rest, hf⟩ := List.exists_cons_of_ne_nil hne
  have htail : ∀ i ∈ m.task.todo.tail, i.Own (reads f.node) := by
    rw [task_of_cons hf]
    exact fun i hi => h.own f (hf ▸ List.mem_cons_self) i (List.mem_of_mem_tail hi)
  cases result with
  | ok reply =>
    rw [conclude_ok]
    exact h.setTask hf htail _ _
  | error e =>
    obtain hc | ⟨-, err, f', rest', -, hf', hc⟩ := conclude_error (m := m) action attempt e
    · rw [hc]
      exact h.setTask hf htail _ _
    · rw [hc]
      exact h.leave hf' _ _

/-- All computes in progress depend on the innermost one. -/
theorem depends_of_mem_stack (h : m.Pulls w₀ root reads) (hf : m.frames = f :: rest) {id : NodeId}
    (hid : id ∈ m.stack) : ReflTransGen w₀.graph.Binds id f.node := by
  have hpath := h.path
  rw [stack_of_cons hf] at hid hpath
  rcases List.mem_cons.mp hid with rfl | hid
  · exact .refl
  · exact (List.pairwise_cons.mp hpath).1 id hid

theorem frames_ne_nil (h : m.Pulls w₀ root reads) (hc : m.control = .running) : m.frames ≠ [] := by
  intro hf
  obtain ⟨outcome, hw⟩ := h.waits hf
  rw [hc] at hw
  cases hw

/-- At the top level the step that waits is concluded, and nothing is left to do. -/
theorem idle_move (h : m.Pulls w₀ root reads) (hf : m.frames = []) : m.move.idle = true := by
  obtain ⟨outcome, hc⟩ := h.waits hf
  obtain ⟨action, attempt, hb⟩ := h.base
  have ht : m.task.todo = [.act action attempt] := by rw [task_of_nil hf, hb]
  obtain ⟨last, hlast, htail, -, -, hm⟩ := exists_conclude_of_returned_top hf hc ht
  rw [hm]
  exact (conclude_of_nil hlast htail _ _ _).1

/-- A read is about an input that is bound: to a living node that the computing node depends on, or
to a dead one and without a hold on it. -/
theorem exists_feeder (h : m.Pulls w₀ root reads) (hr : Run past m) {id : NodeId}
    (hid : id ∈ m.stack) {name : String} {s : Socket} (hg : (m.graph.inputs id).get name = .ok (some s)) :
    ∃ slot ∈ (w₀.graph.inputs id).slots, slot.name = name ∧
      ((slot.binding = some ⟨s, some s.owner⟩ ∧ w₀.graph.alive s.owner = true ∧
          w₀.graph.Binds id s.owner) ∨
        slot.binding = some ⟨s, none⟩ ∧ w₀.graph.alive s.owner = false) := by
  have hal : m.graph.alive id = true := (mirrored hr).alive id hid
  have hin : m.graph.inputs id = w₀.graph.inputs id := h.grows.inputs_eq id
  obtain ⟨slot, hs, rfl, hslot⟩ := Inputs.exists_slot_of_get hg
  obtain ⟨⟨t, feeder⟩, hb, e⟩ := Option.map_eq_some_iff.mp hslot
  obtain rfl : t = s := e
  have hc : m.workspace.Carries ⟨t, feeder⟩ := .bound hal (List.mem_filterMap.mpr ⟨slot, hs, hb⟩)
  rw [hin] at hs
  refine ⟨slot, hs, rfl, ?_⟩
  have halive : m.graph.alive t.owner = w₀.graph.alive t.owner := h.grows.alive_eq t.owner
  cases feeder with
  | none => exact .inr ⟨hb, halive ▸ ((fits hr hc).dead rfl).alive_eq⟩
  | some k =>
    obtain rfl : t.owner = k := (fits hr hc).feeder_eq k rfl
    have hk : m.graph.alive t.owner = true := hc.alive_of_feeder (firm hr) rfl
    refine .inl ⟨hb, halive ▸ hk, (h.grows.alive_eq id).symm.trans hal, ?_⟩
    exact List.mem_filterMap.mpr ⟨slot, hs, by rw [hb]; rfl⟩

section Move

variable (h₀ : w₀.graph.unheld w₀.handles.holds = [])
  (ho : ∀ id, ReflTransGen w₀.graph.Binds root id → (w₀.graph.logic id).OwnInput (reads id))

include h₀ ho

/-- A read starts a compute of own steps, one binding further on. -/
theorem demand (h : m.Pulls w₀ root reads) (hr : Run past m) (hf : m.frames = f :: rest)
    {s : Socket} {holding : Option NodeId} {name : String} (hd : m.Demands s holding)
    (hg : (m.graph.inputs f.node).get name = .ok (some s)) : m.move.Pulls w₀ root reads := by
  have hown : ∀ i ∈ m.task.todo, i.Own (reads f.node) :=
    task_of_cons hf ▸ h.own f (hf ▸ List.mem_cons_self)
  cases ha : m.graph.answer? s with
  | some outcome =>
    obtain ⟨trace, e⟩ := hr.move_of_answer hd ha
    rw [e]
    exact h.setTask hf (t := { m.task with holding := holding }) hown _ _
  | none =>
    have hid : f.node ∈ m.stack := stack_of_cons hf ▸ List.mem_cons_self
    -- The owner is alive, as it is about to compute, so the binding holds it.
    have hbinds : w₀.graph.Binds f.node s.owner := by
      obtain ⟨-, -, -, ⟨-, -, hb⟩ | ⟨-, hdead⟩⟩ := h.exists_feeder hr hid hg
      · exact hb
      · have hal := (Graph.answer?_eq_none_iff.mp ha).2.1
        rw [graph, h.grows.alive_eq, hdead] at hal
        cases hal
    have hown' : ∀ i ∈ (m.graph.logic s.owner).program (m.graph.calls s.owner + 1),
        i.Own (reads s.owner) := by
      rw [show m.graph.logic s.owner = w₀.graph.logic s.owner from h.grows.logic_eq _]
      exact ho s.owner ((h.upstream _ hid).tail hbinds) _
    have hframes : (m.setTask { m.task with holding := holding }).frames =
        { f with task := { m.task with holding := holding } } :: rest := by
      rw [frames_setTask, hf, List.modifyHead_cons]
    have hp := (h.hold hf holding).enter hframes hbinds (by rw [graph_setTask]; exact hown')
    rw [move_of_demands hd, demand_of_no_answer (by simpa using ha), hp.grows.settle_eq h₀]
    exact hp

omit ho in
/-- Nothing dies at a move that only fills cells. -/
theorem move_of_settle (h : n.Pulls w₀ root reads) (hm : m.move = n.settle) :
    m.move.Pulls w₀ root reads := by
  rw [hm, h.grows.settle_eq h₀]
  exact h

omit ho in
/-- The outcome of a read arrives at the innermost compute. -/
theorem resume (h : m.Pulls w₀ root reads) (hf : m.frames = f :: rest)
    {outcome : Except GraphError Value} (hc : m.control = .returned outcome) :
    m.move.Pulls w₀ root reads := by
  have hown : ∀ i ∈ m.task.todo, i.Own (reads f.node) :=
    task_of_cons hf ▸ h.own f (hf ▸ List.mem_cons_self)
  have hne : m.frames ≠ [] := hf ▸ List.cons_ne_nil _ _
  by_cases hact : ∃ action attempt rest, m.task.todo = .act action attempt :: rest
  · obtain ⟨action, attempt, rest, ht⟩ := hact
    cases outcome with
    | ok v =>
      have hne' : (m.keep action v).frames ≠ [] := by
        obtain ⟨t, hk⟩ := exists_keep (m := m) action v
        rw [hk, frames_setTask, hf]
        exact List.cons_ne_nil _ _
      exact ((h.keep action v).conclude hne' _ _ _).move_of_settle h₀ (move_of_value hc ht)
    | error e => exact (h.conclude hne _ _ _).move_of_settle h₀ (move_of_failure hc ht)
  · have hnext : m.next.Pulls w₀ root reads :=
      h.setTask hf (t := { m.task with todo := m.task.todo.tail, holding := none })
        (fun i hi => hown i (List.mem_of_mem_tail hi)) _ _
    exact hnext.move_of_settle h₀ (move_of_unawaited hc hact)

omit ho in
/-- A compute chooses how to go on. -/
theorem choose (h : m.Pulls w₀ root reads) (hf : m.frames = f :: rest) (hc : m.control = .running)
    {register : String} {is : Value} {yes no steps : List Instr}
    (ht : m.task.todo = .branch register is yes no :: steps) : m.move.Pulls w₀ root reads := by
  have hown : ∀ i ∈ m.task.todo, i.Own (reads f.node) :=
    task_of_cons hf ▸ h.own f (hf ▸ List.mem_cons_self)
  let chosen := if m.scope.register register == is then yes else no
  have hchosen : ∀ i ∈ chosen ++ steps, i.Own (reads f.node) :=
    (hown _ (ht ▸ List.mem_cons_self)).of_chosen (fun i hi => hown i (ht ▸ List.mem_cons_of_mem _ hi)) _
  have hset : (m.setTask { m.task with todo := chosen ++ steps }).Pulls w₀ root reads := by
    rw [m.setTask_of_running _ hc]
    exact h.setTask hf (t := { m.task with todo := chosen ++ steps }) hchosen _ _
  exact hset.move_of_settle h₀ (move_of_branch hc ht)

/-- A compute takes a step. -/
theorem perform (h : m.Pulls w₀ root reads) (hr : Run past m) (hf : m.frames = f :: rest)
    (hc : m.control = .running) {action : Action} {attempt : Bool} {steps : List Instr}
    (ht : m.task.todo = .act action attempt :: steps) : m.move.Pulls w₀ root reads := by
  have hi : Instr.Own (reads f.node) (.act action attempt) :=
    h.own f (hf ▸ List.mem_cons_self) _ (task_of_cons hf ▸ ht ▸ List.mem_cons_self)
  have hne : m.frames ≠ [] := hf ▸ List.cons_ne_nil _ _
  have hscope := scope_of_cons hf
  cases hb : action.begin m.scope m.workspace with
  | error e => exact (h.conclude hne _ _ _).move_of_settle h₀ (move_of_error hc ht hb)
  | ok progress =>
    cases progress with
    | demand s holding =>
      have hd := demands_of_begin hc ht hb
      obtain ⟨-, d, into, attempt', steps', ht', htarget⟩ := id hd
      obtain ⟨⟨rfl, rfl⟩, -⟩ := List.cons.inj (ht.symm.trans ht')
      obtain ⟨name, -, hg⟩ := hi.exists_get (hscope ▸ htarget)
      exact h.demand h₀ ho hr hf hd hg
    | done reply w records =>
      have hw : w₀.Grows w := by
        obtain rfl | ⟨s, v, -, hd, rfl⟩ := hi.exists_fill (hscope ▸ hb)
        · exact h.grows
        · exact h.grows.fill hd v
      have hne' : ({ m with workspace := w }.tellAll records).frames ≠ [] := by
        rw [tellAll_eq]
        exact hne
      exact ((h.fill hw records).conclude hne' _ _ _).move_of_settle h₀ (move_of_done hc ht hb)

/-- While a compute is in progress a move keeps the invariant. -/
theorem move (h : m.Pulls w₀ root reads) (hr : Run past m) (hne : m.frames ≠ []) :
    m.move.Pulls w₀ root reads := by
  obtain ⟨f, rest, hf⟩ := List.exists_cons_of_ne_nil hne
  cases hc : m.control with
  | returned outcome => exact h.resume h₀ hf hc
  | running =>
    cases ht : m.task.todo with
    | nil =>
      obtain ⟨trace, e⟩ := complete_eq (m := m) f rest
      have hcomplete : (m.complete f rest).Pulls w₀ root reads := e ▸ h.leave hf _ trace
      exact hcomplete.move_of_settle h₀ (move_of_complete hc ht hf)
    | cons i steps =>
      cases i with
      | branch register is yes no => exact h.choose h₀ hf hc ht
      | act action attempt => exact h.perform h₀ ho hr hf hc ht

/-- The invariant holds until the read has its outcome, and after one more move nothing is left. -/
theorem reaches (h : m.Pulls w₀ root reads) (hr : Run past m) (hl : m.Reaches k) :
    k.Pulls w₀ root reads ∨ k.idle = true := by
  induction hl generalizing past with
  | refl => exact .inl h
  | @move m k hm hl ih =>
    -- Once the last compute is over, one more move concludes the step of the program.
    by_cases hne : m.frames = []
    · have hi := h.idle_move hne
      obtain rfl := hl.eq_of_not (by simp [hi])
      exact .inr hi
    · exact ih (h.move h₀ ho hr hne) hr.move

end Move

end Pulls

section Load

variable {d : Demand} {into : Option String} {s : Socket} {holding : Option NodeId}
  (h : Run past m) (hi : m.idle = true) (hd : (m.load (.demand d into)).Demands s holding)
  (ha : m.graph.alive s.owner = true)
  (ho : ∀ id, ReflTransGen m.graph.Binds s.owner id → (m.graph.logic id).OwnInput (reads id))

include h hi hd ha ho

/-- A read at the top level pulls from its first move on. -/
theorem pulls_of_load : (m.load (.demand d into)).move.Pulls m.workspace s.owner reads := by
  have hr := h.load (.demand d into) hi
  have hf : (m.load (.demand d into)).frames = [] := (idle_cases hi).2.1
  cases hans : (m.load (.demand d into)).graph.answer? s with
  | some outcome =>
    obtain ⟨trace, e⟩ := hr.move_of_answer hd hans
    rw [e]
    obtain ⟨w, base, frames, control, trace₀⟩ := m
    subst hf
    exact ⟨.refl w, nofun, nofun, .nil, ⟨_, _, rfl⟩, fun _ => ⟨outcome, rfl⟩⟩
  | none =>
    obtain ⟨trace, hm⟩ := exists_move_eq_under hd hans
    have hg := (Workspace.Grows.refl m.workspace).enter s.owner
    rw [hm, Workspace.Grows.settle_eq hg (h.unheld_eq_nil hi)]
    obtain ⟨w, base, frames, control, trace₀⟩ := m
    subst hf
    refine ⟨hg, fun f hf => ?_, fun id hid => ?_, List.pairwise_singleton _ _, ⟨_, _, rfl⟩, nofun⟩
    · obtain rfl := List.mem_singleton.mp hf
      exact ho s.owner .refl _
    · obtain rfl := List.mem_singleton.mp hid
      exact .refl

/-- It is in order at every later moment until it is over. -/
theorem pulls_of_reaches (hl : (m.load (.demand d into)).Reaches k) :
    k = m.load (.demand d into) ∨ k.Pulls m.workspace s.owner reads ∨ k.idle = true := by
  cases hl with
  | refl => exact .inl rfl
  | move _ hl =>
    exact .inr ((pulls_of_load h hi hd ha ho).reaches (h.unheld_eq_nil hi) ho
      (h.load _ hi).move hl)

/-- So it has an outcome. -/
theorem exists_reads_of_load : ∃ outcome n, (m.load (.demand d into)).Reads s outcome n := by
  have hr := h.load (.demand d into) hi
  have h₀ := h.unheld_eq_nil hi
  refine hd.exists_reads hr fun k hl hlt id hid => ?_
  have hf : (m.load (.demand d into)).frames = [] := (idle_cases hi).2.1
  rw [hf] at hl hlt
  have hp := (pulls_of_load h hi hd ha ho).reaches h₀ ho hr.move
    (hl.mono fun n hn => idle_of_frames_ne_nil (List.ne_nil_of_length_pos hn))
  have hne := List.ne_nil_of_length_pos hlt
  obtain ⟨past', hrun, -⟩ := hr.move.leads hl
  rcases hp with hp | hp
  · have hp' := hp.move h₀ ho hrun hne
    rw [graph, hp.grows.alive_eq, ← hp'.grows.alive_eq]
    exact hid
  · exact absurd (idle_cases hp).2.1 hne

end Load

end Machine

end PullGraph

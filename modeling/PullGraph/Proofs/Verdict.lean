import Mathlib.Data.List.Chain
import PullGraph.Proofs.Foresight
import PullGraph.Proofs.Survey

/-!
# Errors of a validation and reads that fail

A node that reads all its inputs before it writes has a value only if what it is bound to has one.
So a read that comes to a value has gone through everything that it depends on, and there was no
cycle and no lost node among it.

A validation does not ask for the values that are there already. A cycle through a socket that has a
value is no obstacle to a read, but the validation reports it as one.

* `ReadsAll`, `Logic.Eager`: steps and nodes that read all their inputs before they write.
* `Graph.Fed`: what the node is bound to has a value, or belongs to a node that is fed itself.
* `Machine.Supplies`: the invariant of a read. Only nodes that are fed have filled cells, and each
  compute in progress waits for the one above it.
* `Machine.fed_of_reads`: the owner of a socket whose read comes to a value is fed.
* `Graph.Faces`: a read gets to what an issue is about, past unset sockets only. It does so for every
  issue where none of the sockets has a value yet (`Machine.Unfilled.faces`).
* `Run.doomed`: an error in the report that the read faces means that the read fails.
  `Run.not_doomed_of_value` is a read that faces no error, and does not fail.
-/

namespace PullGraph

open Relation

/-! ## Eager nodes -/

/-- A write of an output of the computing node. -/
inductive Instr.IsWrite : Instr → Prop
  | setOutput {name : String} {source : Source} {attempt : Bool} :
      IsWrite (.act (.edit (.setOutput .self name source)) attempt)
  | setSum {name left right : String} {attempt : Bool} :
      IsWrite (.act (.edit (.setSum .self name left right)) attempt)

/-- Reads of the inputs of these names, none of them an attempt, and then writes. -/
inductive ReadsAll : List String → List Instr → Prop
  | read {name : String} {names : List String} {into : Option String} {rest : List Instr} :
      ReadsAll names rest →
      ReadsAll (name :: names) (.act (.demand (.input .self name) into) false :: rest)
  | write {steps : List Instr} : (∀ i ∈ steps, i.IsWrite) → ReadsAll [] steps

/-- A kind that reads all its inputs in each compute, fails with the first that fails, and otherwise
writes. -/
def Logic.Eager (logic : Logic) : Prop :=
  ∀ call, ∃ names, logic.inputNames ⊆ names ∧ ReadsAll names (logic.program call)

namespace Instr.IsWrite

theorem own {i : Instr} (h : i.IsWrite) : i.Own fun _ => True := by
  cases h with
  | setOutput => exact .setOutput
  | setSum => exact .setSum

theorem eq_act {i : Instr} (h : i.IsWrite) : ∃ action attempt, i = .act action attempt := by
  cases h with
  | setOutput | setSum => exact ⟨_, _, rfl⟩

end Instr.IsWrite

theorem ReadsAll.own {names : List String} {steps : List Instr} (h : ReadsAll names steps) :
    ∀ i ∈ steps, i.Own fun _ => True := by
  induction h with
  | read _ ih =>
    intro i hi
    rcases List.mem_cons.mp hi with rfl | hi
    · exact .input trivial
    · exact ih i hi
  | write hw => exact fun i hi => (hw i hi).own

theorem Logic.Eager.ownInput {logic : Logic} (h : logic.Eager) : logic.OwnInput fun _ => True := by
  intro call
  obtain ⟨names, -, hsteps⟩ := h call
  exact hsteps.own

theorem Logic.eager_value (v : Value) : (Logic.value v).Eager := fun _ =>
  ⟨[], List.Subset.refl _, .write fun i hi => by
    obtain rfl := List.mem_singleton.mp hi
    exact .setOutput⟩

theorem Logic.eager_add : Logic.add.Eager := fun _ =>
  ⟨["v1", "v2"], List.Subset.refl _, .read (.read (.write fun i hi => by
    obtain rfl := List.mem_singleton.mp hi
    exact .setSum))⟩

/-! ## Nodes that are fed -/

namespace Graph

variable (g₀ g : Graph)

/-- A living node all of whose inputs are bound, each to a socket that has a value or whose owner is
such a node too. -/
inductive Fed : NodeId → Prop
  | intro {id : NodeId} : g.alive id = true →
      (∀ name ∈ (g.inputs id).names, ∃ s, (g.inputs id).get name = .ok (some s)) →
      (∀ name s, (g.inputs id).get name = .ok (some s) → g.cell? s = none → Fed s.owner) →
      Fed id

/-- The next step is a read of an input that is bound to the socket. -/
def Waits (id : NodeId) (steps : List Instr) (s : Socket) : Prop :=
  ∃ name into rest, steps = .act (.demand (.input .self name) into) false :: rest ∧
    (g.inputs id).get name = .ok (some s)

/-- What is left to do reads the inputs, but those that are bound to sockets with a value by now,
and then writes. -/
def Steady (id : NodeId) (steps : List Instr) : Prop :=
  ∃ names, ReadsAll names steps ∧ ∀ name ∈ (g₀.inputs id).names,
    name ∈ names ∨ ∃ s, (g₀.inputs id).get name = .ok (some s) ∧ g.cell? s ≠ none

variable {g₀ g} {id root : NodeId} {steps : List Instr}

theorem Fed.alive (h : g.Fed id) : g.alive id = true := by
  cases h with
  | intro ha => exact ha

theorem Fed.of_get (h : g.Fed id) {name : String} {s : Socket}
    (hg : (g.inputs id).get name = .ok (some s)) (hc : g.cell? s = none) : g.Fed s.owner := by
  cases h with
  | intro _ _ hfed => exact hfed name s hg hc

/-- More cells may be filled. -/
theorem Steady.mono {g' : Graph} (h : g₀.Steady g id steps)
    (hc : ∀ s, g'.cell? s = none → g.cell? s = none) : g₀.Steady g' id steps := by
  obtain ⟨names, hsteps, hnames⟩ := h
  exact ⟨names, hsteps, fun name hn => (hnames name hn).imp_right
    fun ⟨s, hg, hs⟩ => ⟨s, hg, fun he => hs (hc s he)⟩⟩

/-- One input less is left to read when the socket that it is bound to has a value. -/
theorem Steady.tail (h : g₀.Steady g id steps) {s : Socket} (hw : g₀.Waits id steps s)
    (hs : g.cell? s ≠ none) : g₀.Steady g id steps.tail := by
  obtain ⟨name, into, rest, rfl, hg⟩ := hw
  obtain ⟨names, hsteps, hnames⟩ := h
  cases hsteps with
  | @read _ names _ _ hrest =>
    refine ⟨names, hrest, fun other ho => ?_⟩
    rcases hnames other ho with hm | hm
    · rcases List.mem_cons.mp hm with rfl | hm
      · exact .inr ⟨s, hg, hs⟩
      · exact .inl hm
    · exact .inr hm
  | write hw => cases hw _ List.mem_cons_self

end Graph

/-! ## Reads of eager nodes -/

open PullGraph.Graph

namespace Machine

/-- A read is under way that began at the workspace `w₀`: whose cells were filled since is fed, and
each compute in progress waits for the socket that the one above it was started for. -/
structure Supplies (w₀ : Workspace) (m : Machine) : Prop where
  fed : ∀ s, w₀.graph.cell? s = none → m.graph.cell? s ≠ none → w₀.graph.Fed s.owner
  steady : ∀ f ∈ m.frames, w₀.graph.Steady m.graph f.node f.task.todo
  waiting : m.frames.IsChain fun f below => w₀.graph.Waits below.node below.task.todo f.demanded
  arrived : ∀ outcome, m.control = .returned outcome → ∀ f ∈ m.frames.head?,
    ∃ s, w₀.graph.Waits f.node f.task.todo s ∧ ∀ v, outcome = .ok v → m.graph.cell? s ≠ none

variable {past : List Machine} {m n : Machine} {w₀ : Workspace} {root : NodeId}
  {reads : NodeId → String → Prop} {f : Frame} {rest : List Frame}

namespace Supplies

theorem settle (h : m.Supplies w₀) : m.settle.Supplies w₀ where
  fed s hs hm := h.fed s hs (by rwa [graph_settle, cell?_release] at hm)
  steady f hf := (h.steady f hf).mono fun s hs => by rwa [graph_settle, cell?_release] at hs
  waiting := h.waiting
  arrived outcome hc f hf := by
    simp only [graph_settle, cell?_release]
    exact h.arrived outcome hc f hf

/-- The innermost task may change. -/
theorem setTask (h : m.Supplies w₀) (hf : m.frames = f :: rest) {t : Task} {c : Control}
    (ht : w₀.graph.Steady m.graph f.node t.todo)
    (hc : ∀ outcome, c = .returned outcome → ∃ s, w₀.graph.Waits f.node t.todo s ∧
      ∀ v, outcome = .ok v → m.graph.cell? s ≠ none) (trace : List Event) :
    Supplies w₀ { m.setTask t with control := c, trace := trace } := by
  obtain ⟨w, base, frames, control, trace₀⟩ := m
  subst hf
  refine ⟨h.fed, fun f' hf' => ?_, ?_, fun outcome ho f' hf' => ?_⟩
  · rcases List.mem_cons.mp hf' with rfl | hf'
    · exact ht
    · exact h.steady f' (List.mem_cons_of_mem _ hf')
  · exact List.isChain_cons.mpr (List.isChain_cons.mp h.waiting)
  · obtain rfl := Option.some.inj hf'
    exact hc outcome ho

/-- The innermost compute may end: with a value if its socket has one. -/
theorem leave (h : m.Supplies w₀) (hf : m.frames = f :: rest) (outcome : Except GraphError Value)
    (ho : ∀ v, outcome = .ok v → m.graph.cell? f.demanded ≠ none) (trace : List Event) :
    Supplies w₀ { m with
      workspace := m.workspace.setGraph (m.graph.leave f.node), frames := rest,
      control := .returned outcome, trace := trace } := by
  obtain ⟨w, base, frames, control, trace₀⟩ := m
  subst hf
  have hcell (s : Socket) : (w.graph.leave f.node).cell? s = w.graph.cell? s := cell?_leave _ _ _
  refine ⟨fun s hs hm => h.fed s hs (hcell s ▸ hm), fun f' hf' => ?_, ?_,
    fun outcome' ho' f' hf' => ?_⟩
  · exact (h.steady f' (List.mem_cons_of_mem _ hf')).mono fun s hs => hcell s ▸ hs
  · exact (List.isChain_cons.mp h.waiting).2
  · cases ho'
    exact ⟨f.demanded, (List.isChain_cons.mp h.waiting).1 f' hf', fun v hv => by
      rw [show Machine.graph _ = w.graph.leave f.node from rfl, hcell]
      exact ho v hv⟩

/-- A refused read ends the innermost compute. -/
theorem refuse (h : m.Supplies w₀) (hf : m.frames = f :: rest) (action : Action) (e : GraphError) :
    (m.conclude action false (.error (.graph e))).Supplies w₀ := by
  have hleave := h.leave hf (.error e) nofun
    (.did m.current action (.error (.graph e)) :: m.trace)
  obtain ⟨w, base, frames, control, trace⟩ := m
  subst hf
  exact hleave

/-- A step may be concluded if the steps after it read what is left to read. -/
theorem conclude (h : m.Supplies w₀) (hf : m.frames = f :: rest)
    (ht : w₀.graph.Steady m.graph f.node f.task.todo.tail) (action : Action) (attempt : Bool)
    (result : Result) : (m.conclude action attempt result).Supplies w₀ := by
  have hnext := h.setTask hf (t := { m.task with todo := m.task.todo.tail, holding := none })
    (c := .running) (task_of_cons hf ▸ ht) nofun
  cases result with
  | ok reply =>
    rw [conclude_ok]
    exact hnext _
  | error e =>
    obtain hc | ⟨-, err, f', rest', -, hf', hc⟩ := conclude_error (m := m) action attempt e
    · rw [hc]
      exact hnext _
    · rw [hc]
      exact h.leave hf' (.error err) nofun _

theorem keep (h : m.Supplies w₀) (action : Action) (v : Value) : (m.keep action v).Supplies w₀ := by
  obtain ⟨w, base, frames, control, trace⟩ := m
  unfold Machine.keep
  split
  · cases frames with
    | nil => exact ⟨h.fed, h.steady, h.waiting, h.arrived⟩
    | cons f rest =>
      exact h.setTask rfl (t := { f.task with registers := f.task.registers.insert _ v })
        (h.steady f List.mem_cons_self) (fun outcome hc => h.arrived outcome hc f rfl) trace
  · exact h

/-- A node that has read all its inputs is fed. -/
theorem fed_of_writes (h : m.Supplies w₀) {id : NodeId} {i : Instr} {steps : List Instr}
    (ha : w₀.graph.alive id = true) (hs : w₀.graph.Steady m.graph id (i :: steps))
    (hi : i.IsWrite) : w₀.graph.Fed id := by
  obtain ⟨names, hsteps, hnames⟩ := hs
  cases hsteps with
  | read => cases hi
  | write =>
    -- Nothing is left to read, so each input is bound to a socket that has its value by now.
    have hbound (name : String) (hn : name ∈ (w₀.graph.inputs id).names) :
        ∃ s, (w₀.graph.inputs id).get name = .ok (some s) ∧ m.graph.cell? s ≠ none :=
      (hnames name hn).resolve_left List.not_mem_nil
    refine .intro ha (fun name hn => (hbound name hn).imp fun _ h => h.1) fun name s hg hc => ?_
    obtain ⟨slot, hslot, rfl, -⟩ := Inputs.exists_slot_of_get hg
    obtain ⟨t, hg', ht⟩ := hbound slot.name (List.mem_map_of_mem hslot)
    obtain rfl : t = s := by simpa [hg] using hg'.symm
    exact h.fed t hc ht

/-- Cells of nodes that are fed may be filled. -/
theorem grow (h : m.Supplies w₀) {w : Workspace}
    (hc : ∀ s, w.graph.cell? s = none → m.graph.cell? s = none)
    (hfed : ∀ s, w₀.graph.cell? s = none → w.graph.cell? s ≠ none → w₀.graph.Fed s.owner)
    (records : List Record) : ({ m with workspace := w }.tellAll records).Supplies w₀ := by
  rw [tellAll_eq]
  refine ⟨hfed, fun f hf => (h.steady f hf).mono hc, h.waiting, fun outcome ho f hf => ?_⟩
  obtain ⟨s, hw, hs⟩ := h.arrived outcome ho f hf
  exact ⟨s, hw, fun v hv hn => hs v hv (hc s hn)⟩

/-- The outcome of a read arrives at the innermost compute. -/
theorem resume (h : m.Supplies w₀) (hf : m.frames = f :: rest) {outcome : Except GraphError Value}
    (hc : m.control = .returned outcome) : m.move.Supplies w₀ := by
  have htodo : m.task.todo = f.task.todo := by rw [task_of_cons hf]
  obtain ⟨s, hw, hs⟩ := h.arrived outcome hc f (hf ▸ rfl)
  obtain ⟨name, into, rest', ht, -⟩ := id hw
  rw [← htodo] at ht
  cases outcome with
  | error e =>
    rw [move_of_failure hc ht]
    exact (h.refuse hf _ e).settle
  | ok v =>
    obtain ⟨t, hk⟩ := exists_keep (m := m) (.demand (.input .self name) into) v
    have hf' : (m.keep (.demand (.input .self name) into) v).frames =
        { f with task := t } :: rest := by
      rw [hk, frames_setTask, hf, List.modifyHead_cons]
    have ht' : t.todo = f.task.todo := by
      rw [← htodo, ← todo_keep, task_of_cons hf']
    have hg : (m.keep (.demand (.input .self name) into) v).graph = m.graph := by
      rw [hk, graph_setTask]
    rw [move_of_value hc ht]
    refine ((h.keep _ v).conclude hf' ?_ _ _ _).settle
    rw [hg]
    exact ht' ▸ (h.steady f (hf ▸ List.mem_cons_self)).tail hw (hs v rfl)

/-- The innermost compute has no steps left. -/
theorem complete (h : m.Supplies w₀) (hf : m.frames = f :: rest) (hc : m.control = .running)
    (ht : m.task.todo = []) : m.move.Supplies w₀ := by
  obtain ⟨trace, e⟩ := complete_eq (m := m) f rest
  rw [move_of_complete hc ht hf, e]
  refine (h.leave hf _ (fun v hv hn => ?_) trace).settle
  rw [hn] at hv
  cases hv

/-- What a node that is fed writes is in cells of its own. -/
theorem cells_of_write (h : m.Supplies w₀) (hf : m.frames = f :: rest) {action : Action}
    {attempt : Bool} (hi : Instr.IsWrite (.act action attempt)) (hfed : w₀.graph.Fed f.node)
    {reply : Reply} {w : Workspace} {records : List Record}
    (hb : action.begin m.scope m.workspace = .ok (.done reply w records)) :
    (∀ s, w.graph.cell? s = none → m.graph.cell? s = none) ∧
      ∀ s, w₀.graph.cell? s = none → w.graph.cell? s ≠ none → w₀.graph.Fed s.owner := by
  rcases hi.own.exists_fill (scope_of_cons hf ▸ hb) with rfl | ⟨t, v, ho, hd, rfl⟩
  · exact ⟨fun s hs => hs, h.fed⟩
  · have hcell (s : Socket) : (m.workspace.setGraph (m.workspace.graph.fill t v)).graph.cell? s =
        if s = t then some v else m.graph.cell? s := cell?_fill _ v hd s
    refine ⟨fun s hs => ?_, fun s hs hn => ?_⟩
    · rw [hcell] at hs
      split at hs
      · cases hs
      · exact hs
    · rw [hcell] at hn
      split at hn
      · next e => rw [e, ho]; exact hfed
      · exact h.fed s hs hn

/-- A node that has read all its inputs writes an output. -/
theorem write (h : m.Supplies w₀) (hf : m.frames = f :: rest) (hc : m.control = .running)
    {action : Action} {attempt : Bool} {steps : List Instr}
    (ht : m.task.todo = .act action attempt :: steps) (hi : Instr.IsWrite (.act action attempt))
    (hfed : w₀.graph.Fed f.node) (htail : w₀.graph.Steady m.graph f.node steps) :
    m.move.Supplies w₀ := by
  have htodo : f.task.todo.tail = steps := by rw [← task_of_cons hf, ht, List.tail_cons]
  cases hb : action.begin m.scope m.workspace with
  | error e =>
    rw [move_of_error hc ht hb]
    exact (h.conclude hf (htodo ▸ htail) _ _ _).settle
  | ok progress =>
    cases progress with
    | demand s holding =>
      obtain ⟨-, d, into, attempt', steps', ht', -⟩ := demands_of_begin hc ht hb
      rw [ht] at ht'
      cases ht'
      cases hi
    | done reply w records =>
      have hgrow := h.cells_of_write hf hi hfed hb
      have hframes : ({ m with workspace := w }.tellAll records).frames = f :: rest := by
        rw [tellAll_eq]
        exact hf
      have hgraph : ({ m with workspace := w }.tellAll records).graph = w.graph := by
        rw [tellAll_eq]
        rfl
      rw [move_of_done hc ht hb]
      refine ((h.grow hgrow.1 hgrow.2 records).conclude hframes ?_ _ _ _).settle
      rw [hgraph, htodo]
      exact htail.mono hgrow.1

section Move

variable (he : ∀ id, ReflTransGen w₀.graph.Binds root id → (w₀.graph.logic id).Eager)

include he

/-- A compute that begins has all its inputs left to read. -/
theorem steady_of_eager (hp : m.Pulls w₀ root reads) (hr : Run past m) {id : NodeId}
    (hid : ReflTransGen w₀.graph.Binds root id) (ha : m.graph.alive id = true) (call : Nat) :
    w₀.graph.Steady m.graph id ((m.graph.logic id).program call) := by
  have hnames := (names_inputs_eq hr ha).1
  rw [show m.graph.logic id = w₀.graph.logic id from hp.grows.logic_eq id] at hnames ⊢
  obtain ⟨names, hsub, hsteps⟩ := he id hid call
  refine ⟨names, hsteps, fun name hn => .inl (hsub ?_)⟩
  rwa [← hp.grows.inputs_eq, ← graph, hnames] at hn

/-- A read begins: it has an answer, or the owner of the socket computes. -/
theorem demand (h : m.Supplies w₀) (hp : m.Pulls w₀ root reads) (hr : Run past m)
    (hf : m.frames = f :: rest) {s : Socket} {holding : Option NodeId} (hd : m.Demands s holding)
    (hw : w₀.graph.Waits f.node f.task.todo s) : m.move.Supplies w₀ := by
  have hstack : f.node ∈ m.stack := stack_of_cons hf ▸ List.mem_cons_self
  have hsteady := h.steady f (hf ▸ List.mem_cons_self)
  have htodo : m.task.todo = f.task.todo := by rw [task_of_cons hf]
  rw [← htodo] at hw hsteady
  cases ha : m.graph.answer? s with
  | some outcome =>
    obtain ⟨trace, e⟩ := hr.move_of_answer hd ha
    rw [e]
    refine h.setTask hf (t := { m.task with holding := holding }) hsteady (fun outcome' ho => ?_) _
    cases ho
    refine ⟨s, hw, fun v hv => ?_⟩
    rw [cell?_of_answer? (hv ▸ ha)]
    exact Option.some_ne_none v
  | none =>
    obtain ⟨trace, e⟩ := exists_move_eq_under hd ha
    have hal := (answer?_eq_none_iff.mp ha).2.1
    have hid : ReflTransGen w₀.graph.Binds root s.owner := by
      obtain ⟨name, -, -, -, hg⟩ := id hw
      rw [← hp.grows.inputs_eq] at hg
      obtain ⟨-, -, -, ⟨-, -, hb⟩ | ⟨-, hdead⟩⟩ := hp.exists_feeder hr hstack hg
      · exact (hp.upstream f.node hstack).tail hb
      · exact absurd (hdead.symm.trans ((hp.grows.alive_eq _).symm.trans hal)) Bool.false_ne_true
    have hnew := steady_of_eager he hp hr hid hal
      (m.graph.calls s.owner + 1)
    have hheld := h.setTask hf (t := { m.task with holding := holding }) (c := .running) hsteady
      nofun trace
    rw [e]
    refine Supplies.settle ?_
    obtain ⟨w, base, frames, control, trace₀⟩ := m
    subst hf
    have hcell (t : Socket) : (w.graph.enter s.owner).cell? t = w.graph.cell? t := cell?_enter _ _ _
    refine ⟨fun t ht hm => h.fed t ht (hcell t ▸ hm), fun f' hf' => ?_,
      List.isChain_cons.mpr ⟨fun below hbelow => ?_, hheld.waiting⟩, nofun⟩
    · rcases List.mem_cons.mp hf' with rfl | hf'
      · exact hnew.mono fun t ht => hcell t ▸ ht
      · exact (hheld.steady f' hf').mono fun t ht => hcell t ▸ ht
    · obtain rfl := Option.some.inj hbelow
      exact hw

/-- A read of an input begins. -/
theorem read (h : m.Supplies w₀) (hp : m.Pulls w₀ root reads) (hr : Run past m)
    (hf : m.frames = f :: rest) (hc : m.control = .running) {name : String} {into : Option String}
    {steps : List Instr}
    (ht : m.task.todo = .act (.demand (.input .self name) into) false :: steps) :
    m.move.Supplies w₀ := by
  have hb : (Action.demand (.input .self name) into).begin m.scope m.workspace = _ :=
    (scope_of_cons hf).symm ▸ Action.begin_input
  rw [hp.grows.inputs_eq] at hb
  rcases hg : (w₀.graph.inputs f.node).get name with e | _ | s
  all_goals rw [hg] at hb
  · rw [move_of_error hc ht hb]
    exact (h.refuse hf _ e).settle
  · rw [move_of_error hc ht hb]
    exact (h.refuse hf _ _).settle
  · refine h.demand he hp hr hf (demands_of_begin hc ht hb) ⟨name, into, steps, ?_, hg⟩
    rw [← task_of_cons hf, ht]

/-- While a compute is in progress a move keeps the invariant. -/
theorem move (h : m.Supplies w₀) (hp : m.Pulls w₀ root reads) (hr : Run past m)
    (hne : m.frames ≠ []) : m.move.Supplies w₀ := by
  obtain ⟨f, rest, hf⟩ := List.exists_cons_of_ne_nil hne
  cases hc : m.control with
  | returned outcome => exact h.resume hf hc
  | running =>
    have hsteady := h.steady f (hf ▸ List.mem_cons_self)
    rw [← task_of_cons hf] at hsteady
    cases ht : m.task.todo with
    | nil => exact h.complete hf hc ht
    | cons i steps =>
      rw [ht] at hsteady
      obtain ⟨names, hsteps, hnames⟩ := id hsteady
      -- At a write nothing is left to read, so the node is fed by now.
      cases hsteps with
      | read => exact h.read he hp hr hf hc ht
      | write hw =>
        have hi := hw i List.mem_cons_self
        have hal : w₀.graph.alive f.node = true := (hp.grows.alive_eq _).symm.trans
          ((mirrored hr).alive f.node (stack_of_cons hf ▸ List.mem_cons_self))
        have htail : w₀.graph.Steady m.graph f.node steps :=
          ⟨[], .write fun i hi => hw i (List.mem_cons_of_mem _ hi), hnames⟩
        obtain ⟨action, attempt, rfl⟩ := hi.eq_act
        exact h.write hf hc ht hi (h.fed_of_writes hal hsteady hi) htail

/-- The invariant holds until the read has its outcome, and after one more move nothing is left. -/
theorem reaches (h : m.Supplies w₀) (hp : m.Pulls w₀ root reads) (hr : Run past m)
    (h₀ : w₀.graph.unheld w₀.handles.holds = [])
    (ho : ∀ id, ReflTransGen w₀.graph.Binds root id → (w₀.graph.logic id).OwnInput (reads id))
    (hl : m.Reaches n) : n.Supplies w₀ ∨ n.idle = true := by
  induction hl generalizing past with
  | refl => exact .inl h
  | @move m n _ hl ih =>
    by_cases hne : m.frames = []
    · have hi := hp.idle_move hne
      obtain rfl := hl.eq_of_not (by simp [hi])
      exact .inr hi
    · exact ih (h.move he hp hr hne) (hp.move h₀ ho hr hne) hr.move

end Move

end Supplies

section Load

variable {d : Demand} {into : Option String} {s : Socket} {holding : Option NodeId}
  (h : Run past m) (hi : m.idle = true) (hd : (m.load (.demand d into)).Demands s holding)
  (ha : m.graph.alive s.owner = true)
  (he : ∀ id, ReflTransGen m.graph.Binds s.owner id → (m.graph.logic id).Eager)

include h hi hd he

/-- The invariant holds from the first move of a read on. -/
theorem supplies_of_load : (m.load (.demand d into)).move.Supplies m.workspace := by
  have hr := h.load (.demand d into) hi
  have hf : (m.load (.demand d into)).frames = [] := (idle_cases hi).2.1
  cases hans : (m.load (.demand d into)).graph.answer? s with
  | some outcome =>
    obtain ⟨trace, e⟩ := hr.move_of_answer hd hans
    rw [e]
    obtain ⟨w, base, frames, control, trace₀⟩ := m
    subst hf
    exact ⟨fun s hs hn => absurd hs hn, nofun, .nil, nofun⟩
  | none =>
    obtain ⟨trace, e⟩ := exists_move_eq_under hd hans
    have hal := (Graph.answer?_eq_none_iff.mp hans).2.1
    obtain ⟨names, hsub, hsteps⟩ := he s.owner .refl (m.graph.calls s.owner + 1)
    have hnames := (names_inputs_eq h hal).1
    rw [e]
    refine Supplies.settle ?_
    obtain ⟨w, base, frames, control, trace₀⟩ := m
    subst hf
    have hcell (t : Socket) : (w.graph.enter s.owner).cell? t = w.graph.cell? t := cell?_enter _ _ _
    refine ⟨fun t ht hm => absurd ((hcell t).trans ht) hm, fun f hf => ?_, .singleton _, nofun⟩
    obtain rfl := List.mem_singleton.mp hf
    exact ⟨names, hsteps, fun name hn => .inl (hsub (hnames ▸ hn))⟩

include ha

/-- It holds at every later moment until the read is over. -/
theorem supplies_of_reaches (hl : (m.load (.demand d into)).Reaches n) :
    n = m.load (.demand d into) ∨ n.Supplies m.workspace ∨ n.idle = true := by
  have ho (id : NodeId) (hid : ReflTransGen m.graph.Binds s.owner id) :
      (m.graph.logic id).OwnInput fun _ => True := (he id hid).ownInput
  cases hl with
  | refl => exact .inl rfl
  | move _ hl =>
    exact .inr ((supplies_of_load h hi hd he).reaches he (pulls_of_load h hi hd ha ho)
      (h.load _ hi).move (h.unheld_eq_nil hi) ho hl)

/-- If the read of an unset socket comes to a value, the owner is fed. -/
theorem fed_of_reads (hc : m.graph.cell? s = none) {v : Value}
    (hr : (m.load (.demand d into)).Reads s (.ok v) n) : m.graph.Fed s.owner := by
  obtain ⟨hreach, hni, -⟩ := exists_exec_of_reads hi hr
  have hcell := hr.cell?_eq (h.load _ hi)
  rcases supplies_of_reaches h hi hd ha he hreach with rfl | hs | hidle
  · exact absurd (hcell.symm.trans hc) (Option.some_ne_none v)
  · exact hs.fed s hc (by rw [hcell]; exact Option.some_ne_none v)
  · exact absurd (hni.symm.trans hidle) Bool.false_ne_true

end Load

end Machine

/-! ## What a fed node depends on -/

namespace Graph

variable {g : Graph} {id other root : NodeId}

/-- The node has an input that is bound to an unset socket of the other one. -/
def Lacks (g : Graph) (id other : NodeId) : Prop :=
  ∃ name s, (g.inputs id).get name = .ok (some s) ∧ s.owner = other ∧ g.cell? s = none

/-- A read of the root gets to what the issue is about by way of unset sockets only. A cycle has to
be one of unset sockets throughout. -/
def Faces (g : Graph) (root : NodeId) : Issue → Prop
  | .cycle id _ source => ReflTransGen g.Lacks root id ∧ g.cell? source = none ∧
      ReflTransGen g.Lacks source.owner id
  | .unconnected id _ => ReflTransGen g.Lacks root id
  | .detached id _ _ => ReflTransGen g.Lacks root id

/-- What a fed node lacks a value of is fed too, -/
theorem Fed.of_lacks (h : g.Fed id) (hl : g.Lacks id other) : g.Fed other := by
  obtain ⟨name, s, hg, rfl, hc⟩ := hl
  exact h.of_get hg hc

/-- directly or not, -/
theorem Fed.of_reaches (h : g.Fed root) (hr : ReflTransGen g.Lacks root id) : g.Fed id := by
  induction hr with
  | refl => exact h
  | tail _ hl ih => exact ih.of_lacks hl

/-- and no way of such needs goes on for ever. -/
theorem Fed.acc (h : g.Fed id) : Acc (fun other id => g.Lacks id other) id := by
  induction h with
  | @intro id _ _ _ ih =>
    refine .intro id fun other hl => ?_
    obtain ⟨name, s, hg, rfl, hc⟩ := hl
    exact ih name s hg hc

end Graph

namespace Machine

variable {past : List Machine} {m : Machine} {root id other : NodeId}

theorem get_of_slot (h : Run past m) (ha : m.graph.alive id = true) {slot : Slot}
    (hs : slot ∈ (m.graph.inputs id).slots) :
    (m.graph.inputs id).get slot.name = .ok (slot.binding.map (·.socket)) := by
  obtain ⟨hnames, hnd⟩ := names_inputs_eq h ha
  exact Inputs.get_of_mem (hnames ▸ hnd) hs

/-- A node is bound to a socket of each node that it depends on. -/
theorem exists_get_of_binds (h : Run past m) (hb : m.graph.Binds id other) :
    ∃ name s, (m.graph.inputs id).get name = .ok (some s) ∧ s.owner = other ∧
      ⟨s, some other⟩ ∈ (m.graph.inputs id).bindings := by
  obtain ⟨ha, hf⟩ := hb
  obtain ⟨slot, hs, hslot⟩ := List.mem_filterMap.mp hf
  obtain ⟨⟨s, feeder⟩, hb, rfl⟩ := Option.bind_eq_some_iff.mp hslot
  have hmem : ⟨s, some other⟩ ∈ (m.graph.inputs id).bindings :=
    List.mem_filterMap.mpr ⟨slot, hs, hb⟩
  refine ⟨slot.name, s, ?_, (fits h (.bound ha hmem)).feeder_eq other rfl, hmem⟩
  rw [get_of_slot h ha hs, hb]
  rfl

/-- A read of a fed node faces no error. -/
theorem not_faces_of_fed (h : Run past m) (hfed : m.graph.Fed root) {issue : Issue}
    (hi : issue ∈ (m.graph.validate root).issues) (hsev : issue.severity = .error) :
    ¬ m.graph.Faces root issue := by
  intro hfaces
  cases issue with
  | unconnected => cases hsev
  | cycle id input source =>
    -- The edge and the way back are of unset sockets, and no such way leads back to a fed node.
    obtain ⟨hr, hc, hback⟩ := hfaces
    obtain ⟨-, -, hg, -, -⟩ := onCycle_of_mem_validate h hfed.alive hi
    exact Graph.not_transGen_of_acc (hfed.of_reaches hr).acc
      (TransGen.head' ⟨input, source, hg, rfl, hc⟩ hback)
  | detached id input output =>
    have hid : m.graph.Fed id := hfed.of_reaches hfaces
    -- An unset socket that a fed node is bound to has a living owner; a detached one has none.
    cases Graph.real_of_mem_validate (firm h).bound hfed.alive hi with
    | @detached _ slot s _ hs hb hc =>
      have hg := get_of_slot h hid.alive hs
      rw [hb] at hg
      have hfits := fits h (.bound hid.alive (List.mem_filterMap.mpr ⟨slot, hs, hb⟩))
      exact absurd ((hfits.dead rfl).alive_eq.symm.trans (hid.of_get hg hc).alive)
        Bool.false_ne_true

/-- No binding by which the node depends on others, directly or not, is to a socket with a value. -/
def Unfilled (m : Machine) (root : NodeId) : Prop :=
  ∀ id, ReflTransGen m.graph.Binds root id → ∀ b ∈ (m.graph.inputs id).bindings, b.feeder ≠ none →
    m.graph.cell? b.socket = none

namespace Unfilled

variable (hu : m.Unfilled root) (h : Run past m)

include hu h

theorem lacks (hr : ReflTransGen m.graph.Binds root id) (hb : m.graph.Binds id other) :
    m.graph.Lacks id other := by
  obtain ⟨name, s, hg, rfl, hmem⟩ := exists_get_of_binds h hb
  exact ⟨name, s, hg, rfl, hu id hr _ hmem nofun⟩

theorem reaches_lacks (hr : ReflTransGen m.graph.Binds root id)
    (hb : ReflTransGen m.graph.Binds id other) : ReflTransGen m.graph.Lacks id other := by
  induction hb with
  | refl => exact .refl
  | tail hb hnext ih => exact ih.tail (hu.lacks h (hr.trans hb) hnext)

/-- As long as nothing that it depends on has a value, a read faces every issue. -/
theorem faces (ha : m.graph.alive root = true) {issue : Issue}
    (hi : issue ∈ (m.graph.validate root).issues) : m.graph.Faces root issue := by
  cases Graph.real_of_mem_validate (firm h).bound ha hi with
  | unconnected hr | detached hr => exact hu.reaches_lacks h .refl hr
  | @cycle id feeder slot s hr hs hb hback =>
    have hid := Graph.alive_of_reflTransGen (firm h).bound ha hr
    have hmem : ⟨s, some feeder⟩ ∈ (m.graph.inputs id).bindings :=
      List.mem_filterMap.mpr ⟨slot, hs, hb⟩
    obtain rfl : s.owner = feeder := (fits h (.bound hid hmem)).feeder_eq feeder rfl
    have hedge : m.graph.Binds id s.owner := Graph.binds_of_slot hid hs hb
    exact ⟨hu.reaches_lacks h .refl hr, hu id hr _ hmem nofun,
      hu.reaches_lacks h (hr.tail hedge) hback⟩

end Unfilled

end Machine

open Machine

variable {past : List Machine} {m : Machine}

/-- Where a read depends on nodes that read all their inputs before they write, an error in the
report that it faces means that the read fails. -/
theorem Run.doomed (h : Run past m) (hi : m.idle = true) {d : Demand} {into : Option String}
    {s : Socket} {holding : Option NodeId}
    (ht : d.target ⟨none, 0, .empty⟩ m.workspace = .ok (some s, holding))
    (ha : m.graph.alive s.owner = true) (hc : m.graph.cell? s = none)
    (he : ∀ id, ReflTransGen m.graph.Binds s.owner id → (m.graph.logic id).Eager)
    (hissue : ∃ issue ∈ (m.graph.validate s.owner).issues,
      issue.severity = .error ∧ m.graph.Faces s.owner issue) :
    ∃ (e : GraphError) (entry : Entry) (k : Machine) (limit : Nat),
      entry.result = .error (.graph e) ∧
        ∀ more, limit ≤ more → m.exec more (.demand d into) = some (entry, k) := by
  have hd : (m.load (.demand d into)).Demands s holding := demands_of_load hi ht
  obtain ⟨outcome, n, hr⟩ := exists_reads_of_load h hi hd ha fun id hid => (he id hid).ownInput
  obtain ⟨-, -, entry, hentry, limit, hexec⟩ := exists_exec_of_reads hi hr
  cases outcome with
  | error e => exact ⟨e, entry, _, limit, hentry, hexec⟩
  | ok v =>
    obtain ⟨issue, hmem, hsev, hfaces⟩ := hissue
    exact absurd hfaces (not_faces_of_fed h (fed_of_reads h hi hd ha he hc hr) hmem hsev)

/-- A sum of a constant, which has been read before, and of itself. -/
theorem Run.doomed_loop :
    ∃ past m, Run past m ∧ m.idle = true ∧ m.graph.cell? ⟨⟨0⟩, "v"⟩ = some (.ofInt 5) ∧
      (m.graph.inputs ⟨1⟩).get "v1" = .ok (some ⟨⟨0⟩, "v"⟩) ∧
      (m.graph.validate ⟨1⟩).issues = [.cycle ⟨1⟩ "v2" ⟨⟨1⟩, "v"⟩] ∧
      ∃ (e : GraphError) (entry : Entry) (k : Machine) (limit : Nat),
        entry.result = .error (.graph e) ∧ ∀ more, limit ≤ more →
          m.exec more (.demand (.output (.label "loop") "v") none) = some (entry, k) := by
  have he : Machine.start.execAll 100
      [.edit (.create "five" .identifier (.value (.ofInt 5))),
        .demand (.output (.label "five") "v") none,
        .edit (.create "loop" .identifier .add),
        .edit (.connect (.label "loop") "v1" (.output (.label "five") "v")),
        .edit (.connect (.label "loop") "v2" (.output (.label "loop") "v"))] = some (_, _) := rfl
  obtain ⟨⟨past, h⟩, hi⟩ := Run.start.of_execAll rfl he
  refine ⟨past, _, h, hi, rfl, rfl, rfl,
    h.doomed (s := ⟨⟨1⟩, "v"⟩) hi rfl rfl rfl (fun id hr => ?eager)
      ⟨_, List.mem_cons_self, rfl, .refl, rfl, .refl⟩⟩
  case eager =>
    obtain ⟨k⟩ := id
    have hlt : k < 2 := Graph.alive_lt _ ((firm h).alive_of_reaches hr rfl)
    rcases k with _ | _ | k
    · exact Logic.eager_value _
    · exact Logic.eager_add
    · omega

/-- Two sums that depend on each other, one of which has a value from before: the validation of the
other reports the cycle, and the read yields a value. -/
theorem Run.not_doomed_of_value :
    ∃ (past : List Machine) (m : Machine) (entry : Entry) (k : Machine),
      Run past m ∧ m.idle = true ∧ m.graph.alive ⟨2⟩ = true ∧ m.graph.cell? ⟨⟨2⟩, "v"⟩ = none ∧
      (∀ id, ReflTransGen m.graph.Binds ⟨2⟩ id → (m.graph.logic id).Eager) ∧
      (∃ issue ∈ (m.graph.validate ⟨2⟩).issues, issue.severity = .error) ∧
      entry.result = .ok (.value (.ofInt 15)) ∧
      m.exec 100 (.demand (.output (.label "y") "v") none) = some (entry, k) := by
  have he : Machine.start.execAll 100
      [.edit (.create "a" .identifier (.value (.ofInt 5))),
        .edit (.create "x" .identifier .add),
        .edit (.create "y" .identifier .add),
        .edit (.connect (.label "x") "v1" (.output (.label "a") "v")),
        .edit (.connect (.label "x") "v2" (.output (.label "a") "v")),
        .demand (.output (.label "x") "v") none,
        .edit (.connect (.label "y") "v1" (.output (.label "x") "v")),
        .edit (.connect (.label "y") "v2" (.output (.label "a") "v")),
        .edit (.connect (.label "x") "v1" (.output (.label "y") "v"))] = some (_, _) := rfl
  obtain ⟨⟨past, h⟩, hi⟩ := Run.start.of_execAll rfl he
  refine ⟨past, _, _, _, h, hi, rfl, rfl, fun id hr => ?_,
    ⟨.cycle ⟨1⟩ "v1" ⟨⟨2⟩, "v"⟩, List.mem_cons_self, rfl⟩, rfl, rfl⟩
  obtain ⟨k⟩ := id
  have hlt : k < 3 := Graph.alive_lt _ ((firm h).alive_of_reaches hr rfl)
  rcases k with _ | _ | _ | k
  · exact Logic.eager_value _
  · exact Logic.eager_add
  · exact Logic.eager_add
  · omega

end PullGraph

import Mathlib.Data.Set.Finite.Basic
import Mathlib.Order.WellFounded
import PullGraph.Proofs.Lazy

/-!
# Who holds whom

A node is alive exactly as long as something holds it. `Graph.release` sees to it that what is not
held dies; here is the other half, that what is held does not.

* `Graph.Binds`: an edge of the graph, from a living node to a node that one of its bindings holds.
* `Workspace.Firm`: all that is held is alive. Edits and deaths keep it (`Effect.firm`,
  `Workspace.Firm.release`), and so it holds in every run (`Machine.firm`).
* `Workspace.Supports`: what a handle or a stored set of inputs keeps alive, over any number of edges.
* `Graph.exists_cycle_of_held`: a living node without support hangs on a cycle of edges.
* `Run.lifetimes`: all of this at every moment of every run, and that the dead stay dead.
-/

namespace PullGraph

open Relation

/-! ## Edges -/

theorem Graph.alive_push {g : Graph} {node : Option Node} {id : NodeId} :
    (g.push node).alive id = if id = g.nextId then node.any (·.alive) else g.alive id := by
  simp only [alive, node?_push]
  split <;> rfl

/-- A binding of a living node holds another node. -/
def Graph.Binds (g : Graph) (id other : NodeId) : Prop :=
  g.alive id = true ∧ other ∈ (g.inputs id).feeders

/-- Where edges lead to living nodes, so do ways. -/
theorem Graph.alive_of_reflTransGen {g : Graph} {root id : NodeId}
    (hb : ∀ id other, g.Binds id other → g.alive other = true) (ha : g.alive root = true)
    (hr : ReflTransGen g.Binds root id) : g.alive id = true := by
  cases hr with
  | refl => exact ha
  | tail _ h => exact hb _ _ h

namespace Inputs

theorem feeders_unconnected (names : List String) : (unconnected names).feeders = [] := by
  simp [feeders, unconnected, List.filterMap_map]

variable {inputs changed : Inputs}

/-- Binding a name to a socket makes nothing held but the owner of the socket, if that is alive. -/
theorem mem_feeders_of_set {alive : NodeId → Bool} {key : String} {s : Option Socket} {id : NodeId}
    (h : inputs.set alive key s = .ok changed) (hid : id ∈ changed.feeders) :
    id ∈ inputs.feeders ∨ alive id = true := by
  obtain ⟨slot, hm, hb⟩ := List.mem_filterMap.mp hid
  rw [slots_of_rebind h] at hm
  rcases mem_rebound hm with hm | rfl
  · exact .inl (List.mem_filterMap.mpr ⟨slot, hm, hb⟩)
  · obtain ⟨b, hs, hf⟩ := Option.bind_eq_some_iff.mp hb
    obtain ⟨t, -, rfl⟩ := Option.map_eq_some_iff.mp hs
    simp only [Binding.now, Option.ite_none_right_eq_some, Option.some.injEq] at hf
    exact .inr (hf.2 ▸ hf.1)

end Inputs

/-! ## What is held is alive -/

/-- All that handles, stored inputs, living nodes and `others` hold is alive. -/
structure Workspace.Firm (w : Workspace) (others : List NodeId) : Prop where
  handles : ∀ id ∈ w.handles.nodes.values, w.graph.alive id = true
  stored : ∀ inputs ∈ w.handles.inputs.values, ∀ id ∈ inputs.feeders, w.graph.alive id = true
  bound : ∀ id other, w.graph.Binds id other → w.graph.alive other = true
  others : ∀ id ∈ others, w.graph.alive id = true

namespace Workspace.Firm

variable {w w' : Workspace} {others : List NodeId} {id : NodeId}

theorem alive_of_mem_holds (h : w.Firm others) (hid : id ∈ w.handles.holds) :
    w.graph.alive id = true := by
  rcases List.mem_append.mp hid with hid | hid
  · exact h.handles id hid
  · obtain ⟨inputs, hi, hf⟩ := List.mem_flatMap.mp hid
    exact h.stored inputs hi id hf

theorem alive_of_mem_holders (h : w.Firm others)
    (hid : id ∈ w.graph.holders (w.handles.holds ++ others)) : w.graph.alive id = true := by
  rcases List.mem_append.mp hid with hid | hid
  · exact (List.mem_append.mp hid).elim h.alive_of_mem_holds (h.others id)
  · obtain ⟨k, hk, hf⟩ := List.mem_flatMap.mp hid
    exact h.bound k id ⟨(Graph.mem_living _).mp hk, hf⟩

/-- Edges lead from living nodes to living nodes. -/
theorem alive_of_reaches (h : w.Firm others) {root : NodeId} (hr : ReflTransGen w.graph.Binds root id)
    (ha : w.graph.alive root = true) : w.graph.alive id = true :=
  Graph.alive_of_reflTransGen h.bound ha hr

/-- Firm workspaces stay firm where no life ends and no edge is made. -/
theorem congr (h : w.Firm others) (hh : w'.handles = w.handles)
    (ha : ∀ id, w'.graph.alive id = w.graph.alive id)
    (hi : ∀ id, w'.graph.inputs id = w.graph.inputs id) : w'.Firm others where
  handles id hid := by rw [ha]; exact h.handles id (hh ▸ hid)
  stored inputs hm id hid := by rw [ha]; exact h.stored inputs (hh ▸ hm) id hid
  bound id other hb := by
    rw [ha]
    exact h.bound id other ⟨(ha id).symm.trans hb.1, hi id ▸ hb.2⟩
  others id hid := by rw [ha]; exact h.others id hid

end Workspace.Firm

namespace Graph

variable {g : Graph} {outside : List NodeId}

/-- Nothing that is held dies of a release, however far it goes. -/
theorem alive_of_held_release (h : ∀ id ∈ g.holders outside, g.alive id = true) :
    ∀ id ∈ (g.release outside).holders outside, (g.release outside).alive id = true := by
  have hr (rounds : Nat) (g : Graph) (h : ∀ id ∈ g.holders outside, g.alive id = true) :
      ∀ id ∈ (releaseRounds outside rounds g).holders outside,
        (releaseRounds outside rounds g).alive id = true := by
    induction rounds generalizing g with
    | zero => exact h
    | succ rounds ih =>
      simp only [releaseRounds]
      split
      · exact h
      · refine ih _ fun id hid => ?_
        -- After a round there are no more holds than before, and what was held did not die of it.
        have hid' : id ∈ g.holders outside := by
          rcases List.mem_append.mp hid with ho | ho
          · exact List.mem_append_left _ ho
          · obtain ⟨k, hk, hf⟩ := List.mem_flatMap.mp ho
            have hk' := (g.alive_kill.mp ((mem_living _).mp hk)).1
            rw [inputs_congr (g.map_node?_kill (fun _ => by rfl) _ k)] at hf
            exact List.mem_append_right _ (List.mem_flatMap.mpr ⟨k, (mem_living _).mpr hk', hf⟩)
        exact g.alive_kill.mpr ⟨h id hid', fun hd => (g.mem_unheld.mp hd).2 hid'⟩
  exact hr g.nodes.size g h

end Graph

theorem Workspace.Firm.release {w : Workspace} {others : List NodeId} (h : w.Firm others) :
    (w.release others).Firm others := by
  have hr := Graph.alive_of_held_release fun id hid => h.alive_of_mem_holders hid
  have hout {id : NodeId} (hid : id ∈ w.handles.holds ++ others) :
      (w.graph.release (w.handles.holds ++ others)).alive id = true :=
    hr id (List.mem_append_left _ hid)
  refine ⟨fun id hid => ?_, fun inputs hm id hid => ?_, fun id other hb => ?_, fun id hid => ?_⟩
  · exact hout (List.mem_append_left _ (List.mem_append_left _ hid))
  · refine hout (List.mem_append_left _ (List.mem_append_right _ ?_))
    exact List.mem_flatMap.mpr ⟨inputs, hm, hid⟩
  · refine hr other (List.mem_append_right _ (List.mem_flatMap.mpr ⟨id, ?_, hb.2⟩))
    exact (Graph.mem_living _).mpr hb.1
  · exact hout (List.mem_append_right _ hid)

/-! ## Edits -/

namespace Effect

variable {scope : Scope} {w w' : Workspace} {write : Option Write} {id : NodeId}
  {others : List NodeId}

/-- A new node is the only one that a change brings to life. -/
theorem alive_or_eq_nextId (h : Effect scope w write w') (ha : w'.graph.alive id = true) :
    w.graph.alive id = true ∨ id = w.graph.nextId := by
  cases h with
  | filled => exact .inl ((Graph.alive_fill _ _ _ _).symm.trans ha)
  | bound => exact .inl ((Graph.alive_rewire _ _ _ _).symm.trans ha)
  | created | numbered =>
    change (Graph.push _ _).alive id = true at ha
    rw [Graph.alive_push] at ha
    split at ha
    · next e => exact .inr e
    · exact .inl ha
  | _ => exact .inl ha

end Effect

namespace Workspace.Firm

variable {w : Workspace} {scope : Scope} {others : List NodeId} {id : NodeId}

theorem alive_of_holds (h : w.Firm others) (hs : ∀ k, scope.self = some k → k ∈ others)
    (hid : scope.Holds w id) : w.graph.alive id = true :=
  hid.elim (fun e => h.others id (hs id e)) (h.handles id)

theorem alive_of_sees (h : w.Firm others) (hs : ∀ k, scope.self = some k → k ∈ others)
    {inputs : Inputs} (hi : scope.Sees w inputs) (hid : id ∈ inputs.feeders) :
    w.graph.alive id = true := by
  rcases hi with hi | ⟨k, hk, rfl⟩
  · exact h.stored inputs hi id hid
  · exact h.bound k id ⟨h.alive_of_holds hs hk, hid⟩

theorem keepNode (h : w.Firm others) (label : String) (ha : w.graph.alive id = true) :
    (w.keepNode label id).Firm others where
  handles k hk := (Table.eq_or_mem_of_mem_insert hk).elim (fun e => e ▸ ha) (h.handles k)
  stored := h.stored
  bound := h.bound
  others := h.others

theorem keepInputs (h : w.Firm others) (label : String) {inputs : Inputs}
    (ha : ∀ id ∈ inputs.feeders, w.graph.alive id = true) :
    (w.keepInputs label inputs).Firm others where
  handles := h.handles
  stored i hi := (Table.eq_or_mem_of_mem_insert hi).elim (fun e => e ▸ ha) (h.stored i)
  bound := h.bound
  others := h.others

/-- A new identity is held by nothing, and its node holds nothing. -/
theorem push (h : w.Firm others) (node : Option Node)
    (hn : ∀ n, node = some n → n.inputs.feeders = []) :
    (w.setGraph (w.graph.push node)).Firm others := by
  have ha (k : NodeId) (hk : w.graph.alive k = true) : (w.graph.push node).alive k = true := by
    have hne : k ≠ w.graph.nextId := by
      rintro rfl
      simp [Graph.alive] at hk
    rw [Graph.alive_push, if_neg hne, hk]
  refine ⟨fun k hk => ha k (h.handles k hk), fun i hi k hk => ha k (h.stored i hi k hk),
    fun k other hb => ?_, fun k hk => ha k (h.others k hk)⟩
  obtain ⟨hk, hf⟩ : (w.graph.push node).Binds k other := hb
  rw [Graph.inputs_push] at hf
  split at hf
  · cases node with
    | none => simp [Inputs.feeders, default, instInhabitedInputs.default] at hf
    | some n => simp [hn n rfl] at hf
  · next hne =>
    rw [Graph.alive_push, if_neg hne] at hk
    exact ha other (h.bound k other ⟨hk, hf⟩)

end Workspace.Firm

/-- A step can only make hold what is alive. -/
theorem Effect.firm {scope : Scope} {w w' : Workspace} {write : Option Write}
    {others : List NodeId} (h : Effect scope w write w') (hw : w.Firm others)
    (hs : ∀ k, scope.self = some k → k ∈ others) : w'.Firm others := by
  -- A new hold is of a node within reach, which is held already, or of one that the change has
  -- found to be alive.
  cases h with
  | nothing | refused => exact hw
  | filled => exact hw.congr rfl (Graph.alive_fill _ _ _) (Graph.inputs_fill _ _ _)
  | @created policy logic label =>
    have hp := hw.push (some (.fresh logic (.unconnected logic.inputNames))) fun n e => by
      cases e
      exact Inputs.feeders_unconnected _
    refine hp.keepNode label ?_
    change (Graph.push _ _).alive _ = true
    rw [Graph.alive_push, if_pos rfl]
    rfl
  | numbered =>
    have hp := hw.push none fun n e => by cases e
    exact ⟨hp.handles, hp.stored, hp.bound, hp.others⟩
  | @bound id key s inputs hid _ hi =>
    have ha (k : NodeId) : (w.graph.rewire id inputs).alive k = w.graph.alive k :=
      Graph.alive_rewire _ _ _ _
    refine ⟨fun k hk => (ha k).trans (hw.handles k hk),
      fun i hm k hk => (ha k).trans (hw.stored i hm k hk), fun k other hb => (ha other).trans ?_,
      fun k hk => (ha k).trans (hw.others k hk)⟩
    obtain ⟨hk, hf⟩ := hb
    obtain ⟨e, rfl⟩ | e := w.graph.inputs_rewire id k inputs
    · rcases Inputs.mem_feeders_of_set hi (e ▸ hf) with hf | ho
      · exact hw.bound k other ⟨(ha k).symm.trans hk, hf⟩
      · exact ho
    · exact hw.bound k other ⟨(ha k).symm.trans hk, e ▸ hf⟩
  | @keptNode label id hid =>
    refine hw.keepNode label ?_
    rcases hid with hid | ha | ⟨inputs, hi, hid⟩
    · exact hw.alive_of_holds hs hid
    · exact ha
    · exact hw.alive_of_sees hs hi hid
  | droppedNode =>
    exact ⟨fun k hk => hw.handles k (Table.mem_values_of_mem_erase hk), hw.stored, hw.bound, hw.others⟩
  | keptSocket | droppedSocket => exact ⟨hw.handles, hw.stored, hw.bound, hw.others⟩
  | @keptInputs label inputs hi =>
    refine hw.keepInputs label fun k hk => ?_
    rcases hi with hi | ⟨policy, names, hi⟩ | ⟨old, hold, key, t, -, hi⟩
    · exact hw.alive_of_sees hs hi hk
    · obtain ⟨⟨⟩, -, hi⟩ := bind_eq_ok.mp hi
      cases pure_eq_ok.mp hi
      simp [Inputs.feeders_unconnected] at hk
    · rcases Inputs.mem_feeders_of_set hi hk with hk | ha
      · exact hw.stored old hold k hk
      · exact ha
  | droppedInputs =>
    exact ⟨hw.handles, fun i hm => hw.stored i (Table.mem_values_of_mem_erase hm), hw.bound, hw.others⟩

/-! ## Support -/

/-- A handle or a stored set of inputs holds the node, or a node from which edges lead there. -/
def Workspace.Supports (w : Workspace) (id : NodeId) : Prop :=
  ∃ root ∈ w.handles.holds, ReflTransGen w.graph.Binds root id

/-- Where each of some living nodes is held by another one of them, they contain a cycle. -/
theorem Graph.exists_cycle_of_held {g : Graph} {P : NodeId → Prop}
    (ha : ∀ id, P id → g.alive id = true) (hb : ∀ id, P id → ∃ k, P k ∧ g.Binds k id)
    {id : NodeId} (hid : P id) : ∃ c, P c ∧ TransGen g.Binds c c := by
  let edge : {k // P k} → {k // P k} → Prop := fun a b => g.Binds a b
  have hfin : Finite {k // P k} :=
    ((List.finite_toSet g.living).subset fun k hk => g.mem_living.mpr (ha k hk)).to_subtype
  by_contra hno
  have hirrefl : Std.Irrefl (TransGen edge) := by
    exact ⟨fun c hc => hno ⟨c, c.2, TransGen.lift Subtype.val (fun _ _ h => h) c c hc⟩⟩
  -- Without a cycle some node would come first, but that one is held as well.
  have hwf : WellFounded (TransGen edge) := Finite.wellFounded_of_trans_of_irrefl _
  obtain ⟨k, -, hmin⟩ := hwf.has_min Set.univ ⟨⟨id, hid⟩, trivial⟩
  obtain ⟨first, hf, he⟩ := hb k k.2
  exact hmin ⟨first, hf⟩ trivial (.single he)

/-! ## Runs -/

namespace Machine

variable {past : List Machine} {m m' : Machine} {id : NodeId}

theorem mem_holds_setTask {t : Task} (h : id ∈ (m.setTask t).holds) :
    id ∈ m.holds ∨ t.holding = some id := by
  obtain ⟨w, base, frames, control, trace⟩ := m
  cases frames with
  | nil =>
    refine .inr ?_
    simpa [holds, setTask] using h
  | cons f rest =>
    simp only [holds, setTask, List.flatMap_cons, List.mem_append, List.mem_cons,
      Option.mem_toList] at h ⊢
    rcases h with hb | (hn | ht) | hr
    · exact .inl (.inl hb)
    · exact .inl (.inr (.inl (.inl hn)))
    · exact .inr ht
    · exact .inl (.inr (.inr hr))

theorem mem_holds_enter {s : Socket} (h : id ∈ (m.enter s).holds) : id ∈ m.holds ∨ id = s.owner := by
  rcases List.mem_append.mp h with hb | hf
  · exact .inl (List.mem_append_left _ hb)
  · obtain ⟨f, hf, hid⟩ := List.mem_flatMap.mp hf
    rcases List.mem_cons.mp hf with rfl | hf
    · exact .inr (List.mem_singleton.mp hid)
    · exact .inl (List.mem_append_right _ (List.mem_flatMap.mpr ⟨f, hf, hid⟩))

theorem mem_holds_of_self (h : m.scope.self = some id) : id ∈ m.holds := by
  obtain ⟨f, hf, rfl⟩ := Option.map_eq_some_iff.mp h
  refine List.mem_append_right _ (List.mem_flatMap.mpr ⟨f, ?_, List.mem_cons_self⟩)
  exact List.mem_of_mem_head? hf

/-- A read holds on to a node that its step can refer to. -/
theorem Demands.holds_of_holding {s : Socket} (h : m.Demands s (some id)) :
    m.scope.Holds m.workspace id := by
  obtain ⟨-, d, into, attempt, rest, -, hd⟩ := h
  cases d with
  | output n name =>
    obtain ⟨k, hk, hd⟩ := bind_eq_ok.mp hd
    obtain ⟨t, -, hd⟩ := bind_eq_ok.mp hd
    cases pure_eq_ok.mp hd
    exact Scope.holds_of_node hk
  | input n name =>
    obtain ⟨k, hk, hd⟩ := bind_eq_ok.mp hd
    obtain ⟨t, -, hd⟩ := bind_eq_ok.mp hd
    cases t with
    | none => cases hd
    | some t => cases pure_eq_ok.mp hd; exact Scope.holds_of_node hk
  | optionalInput n name =>
    obtain ⟨k, hk, hd⟩ := bind_eq_ok.mp hd
    obtain ⟨t, -, hd⟩ := bind_eq_ok.mp hd
    cases pure_eq_ok.mp hd
    exact Scope.holds_of_node hk
  | socket r =>
    obtain ⟨t, -, hd⟩ := bind_eq_ok.mp hd
    cases pure_eq_ok.mp hd

theorem Turn.firm (ht : Turn m m') (hh : m.control = .running → m.task.holding = none)
    (hw : m.workspace.Firm m.holds) : m'.workspace.Firm m'.holds := by
  -- While a read waits its step holds on to one more node, which is within reach of the step.
  have hdem {s : Socket} {holding : Option NodeId} (hd : m.Demands s holding) (k : NodeId)
      (hk : k ∈ (m.setTask { m.task with holding := holding }).holds) :
      m.graph.alive k = true := by
    rcases mem_holds_setTask hk with hk | hk
    · exact hw.others k hk
    · obtain rfl : holding = some k := hk
      exact hw.alive_of_holds (fun _ => mem_holds_of_self) hd.holds_of_holding
  cases ht with
  | rest => exact hw
  | @step task w trace ht he =>
    have hf := he.firm hw fun _ => mem_holds_of_self
    refine ⟨hf.handles, hf.stored, hf.bound, fun k hk => hf.others k ?_⟩
    rcases mem_holds_setTask (t := task) hk with hk | hk
    · exact hk
    · rw [ht hh] at hk
      cases hk
  | @answer s holding _ _ hd =>
    have hg := (m.workspace_setTask { m.task with holding := holding }).symm
    exact hg ▸ ⟨hw.handles, hw.stored, hw.bound, hdem hd⟩
  | @enter s holding hd ha =>
    have hg := m.graph_setTask { m.task with holding := holding }
    have hf : m.workspace.Firm ((m.setTask { m.task with holding := holding }).enter s).holds := by
      refine ⟨hw.handles, hw.stored, hw.bound, fun k hk => ?_⟩
      rcases mem_holds_enter hk with hk | rfl
      · exact hdem hd k hk
      · exact (Graph.answer?_eq_none_iff.mp ha).2.1
    rw [workspace_enter, hg, workspace_setTask]
    exact hf.congr rfl (Graph.alive_enter _ _) (Graph.inputs_enter _ _)
  | @leave f rest outcome trace hf =>
    have hsub : m.workspace.Firm (Machine.holds { m with
        workspace := m.workspace.setGraph (m.graph.leave f.node), frames := rest,
        control := .returned outcome, trace := trace }) := by
      refine ⟨hw.handles, hw.stored, hw.bound, fun k hk => hw.others k ?_⟩
      rcases List.mem_append.mp hk with hk | hk
      · exact List.mem_append_left _ hk
      · refine List.mem_append_right _ ?_
        rw [hf, List.flatMap_cons]
        exact List.mem_append_right _ hk
    exact hsub.congr rfl (Graph.alive_leave _ _) (Graph.inputs_leave _ _)

/-- In every run all that is held is alive. -/
theorem firm (h : Run past m) : m.workspace.Firm m.holds := by
  induction h with
  | start =>
    refine ⟨?_, ?_, fun id other hb => ?_, ?_⟩
    · exact fun id hid => by cases hid
    · exact fun i hi => by cases hi
    · simp [Graph.Binds, Graph.alive, start, Workspace.empty, Graph.empty, Graph.node?] at hb
    · exact fun id hid => by cases hid
  | @move past m h ih =>
    obtain ⟨t, ht, e⟩ := exists_turn m
    rw [e]
    exact (ht.firm h.holding_eq_none ih).release
  | load action _ hi ih => exact ih

/-- The record of a node says that it is dead. -/
def Dead (m : Machine) (id : NodeId) : Prop :=
  ∃ node, m.graph.node? id = some node ∧ node.alive = false

theorem Dead.alive_eq (h : m.Dead id) : m.graph.alive id = false := by
  obtain ⟨node, hn, ha⟩ := h
  simp [Graph.alive, hn, ha]

theorem Dead.span?_ne (h : m.Dead id) : m.span? ≠ some (.entered id) := by
  intro he
  obtain ⟨s, holding, -, rfl, ha, -⟩ := demands_of_entered he
  have := (Graph.answer?_eq_none_iff.mp ha).2.1
  rw [h.alive_eq] at this
  cases this

/-- No move brings a node back to life. -/
theorem Dead.move (h : m.Dead id) : m.move.Dead id := by
  obtain ⟨node, hn, ha⟩ := h
  have hnames : m.graph.names? id = some node.outputs.names := by rw [Graph.names?, hn]; rfl
  obtain ⟨node', hn', -⟩ := Option.map_eq_some_iff.mp (names?_move hnames)
  refine ⟨node', hn', ?_⟩
  have hdead : m.graph.alive id = false := by simp [Graph.alive, hn, ha]
  rw [← Bool.not_eq_true]
  intro ha'
  have hal : m.move.graph.alive id = true := by simp [Graph.alive, hn', ha']
  -- Life is given to a new identity only, and this node has its record already.
  obtain ⟨w, outside, hg, hw⟩ := m.move_cases
  rw [hg] at hal
  have hw' := Graph.alive_of_alive_release _ hal
  obtain ⟨-, -, he⟩ | ⟨s, holding, -, -, -, -, hw⟩ | ⟨s, -, -, hw⟩ := hw
  · rcases he.alive_or_eq_nextId hw' with ha | rfl
    · exact absurd (hdead ▸ ha) Bool.false_ne_true
    · have hnone := m.workspace.graph.node?_nextId
      rw [graph] at hn
      rw [hn] at hnone
      cases hnone
  · rw [hw, Graph.alive_enter, hdead] at hw'
    cases hw'
  · rw [hw, Graph.alive_leave, hdead] at hw'
    cases hw'

/-- The dead stay dead, and no further compute of theirs is counted. -/
theorem Dead.of_mem (hr : Run past m) {earlier : Machine} (he : earlier ∈ m :: past)
    (h : earlier.Dead id) : m.Dead id ∧ m.graph.calls id = earlier.graph.calls id := by
  rcases List.mem_cons.mp he with rfl | he
  · exact ⟨h, rfl⟩
  refine hr.keep_of_mem (P := fun n => n.Dead id ∧ n.graph.calls id = earlier.graph.calls id) he
    (fun past n hn hp => ?_) (fun past n action _ _ hp => hp) ⟨h, rfl⟩
  exact ⟨hp.1.move, (calls_move hp.1.span?_ne).trans hp.2⟩

end Machine

open Machine

/-- At a moment of a run the living nodes are those that are held. -/
structure Lifetimes (past : List Machine) (m : Machine) : Prop where
  /-- Between the steps of the program, handles and bindings are all that holds. -/
  held : m.idle = true → ∀ id, m.graph.alive id = true →
    id ∈ m.workspace.handles.nodes.values ∨ (∃ other, m.graph.Binds other id) ∨
      ∃ inputs ∈ m.workspace.handles.inputs.values, id ∈ inputs.feeders
  supported : ∀ id, m.workspace.Supports id → m.graph.alive id = true
  /-- A living node that no handle supports hangs on a cycle. -/
  cyclic : m.idle = true → ∀ id, m.graph.alive id = true → ¬ m.workspace.Supports id →
    ∃ c, TransGen m.graph.Binds c c ∧ ReflTransGen m.graph.Binds c id
  acyclic : m.idle = true → (∀ c, ¬ TransGen m.graph.Binds c c) →
    ∀ id, m.graph.alive id = true ↔ m.workspace.Supports id
  /-- A node lives as long as it computes. -/
  computing : ∀ id ∈ m.stack, m.graph.alive id = true
  /-- The dead stay dead and compute no more, -/
  dead : ∀ earlier ∈ m :: past, ∀ id, earlier.Dead id →
    m.graph.alive id = false ∧ id ∉ m.stack ∧ m.span? ≠ some (.entered id) ∧
      m.graph.calls id = earlier.graph.calls id
  /-- and their cells keep what they held, unless it is written over in their name. -/
  kept : ∀ later earlier before, past = later ++ earlier :: before → ∀ s, earlier.Dead s.owner →
    m.graph.cell? s = (((writes (later ++ [earlier])).find? fun write => write.Fills s).map
      (·.value)).or (earlier.graph.cell? s)

variable {past : List Machine} {m : Machine}

/-- A cell holds what its owner wrote last since an earlier moment, or what it held then. -/
theorem Run.cell?_eq_or (h : Run past m) {later before : List Machine} {earlier : Machine}
    (hp : past = later ++ earlier :: before) (s : Socket) :
    m.graph.cell? s = (((writes (later ++ [earlier])).find? fun write => write.Fills s).map
      (·.value)).or (earlier.graph.cell? s) := by
  have hb := h.of_append hp
  have hw : writes past = writes (later ++ [earlier]) ++ writes before := by
    rw [hp, writes, writes, writes, ← List.filterMap_append, List.append_assoc]
    rfl
  rw [h.cell?_eq, hb.cell?_eq, hw, List.find?_append]
  cases (writes (later ++ [earlier])).find? fun write => write.Fills s <;> rfl

theorem Run.mem_holders (h : Run past m) (hi : m.idle = true) {id : NodeId}
    (ha : m.graph.alive id = true) : id ∈ m.graph.holders m.workspace.handles.holds := by
  by_contra hn
  have hu : id ∈ m.graph.unheld m.workspace.handles.holds := (Graph.mem_unheld _).mpr ⟨ha, hn⟩
  rw [graph, h.unheld_eq_nil hi] at hu
  cases hu

/-- A living node that no handle supports hangs on a cycle. -/
theorem Run.exists_cycle (h : Run past m) (hi : m.idle = true) {id : NodeId}
    (ha : m.graph.alive id = true) (hs : ¬ m.workspace.Supports id) :
    ∃ c, TransGen m.graph.Binds c c ∧ ReflTransGen m.graph.Binds c id := by
  let P : NodeId → Prop := fun k =>
    m.graph.alive k = true ∧ ¬ m.workspace.Supports k ∧ ReflTransGen m.graph.Binds k id
  have hheld (k : NodeId) (hk : P k) : ∃ k', P k' ∧ m.graph.Binds k' k := by
    obtain ⟨hal, hsup, hreach⟩ := hk
    rcases List.mem_append.mp (h.mem_holders hi hal) with ho | hb
    · exact absurd ⟨k, ho, .refl⟩ hsup
    · obtain ⟨k', hk', hf⟩ := List.mem_flatMap.mp hb
      have hbinds : m.graph.Binds k' k := ⟨(Graph.mem_living _).mp hk', hf⟩
      refine ⟨k', ⟨hbinds.1, fun hsup' => hsup ?_, .head hbinds hreach⟩, hbinds⟩
      obtain ⟨root, hroot, hr⟩ := hsup'
      exact ⟨root, hroot, hr.tail hbinds⟩
  obtain ⟨c, hc, hcycle⟩ := Graph.exists_cycle_of_held (P := P) (fun _ hk => hk.1) hheld
    ⟨ha, hs, .refl⟩
  exact ⟨c, hcycle, hc.2.2⟩

/-- Nodes live as long as they are held. -/
theorem Run.lifetimes (h : Run past m) : Lifetimes past m where
  held hi id ha := by
    rcases List.mem_append.mp (h.mem_holders hi ha) with ho | hb
    · rcases List.mem_append.mp ho with hn | hs
      · exact .inl hn
      · obtain ⟨inputs, hm, hf⟩ := List.mem_flatMap.mp hs
        exact .inr (.inr ⟨inputs, hm, hf⟩)
    · obtain ⟨k, hk, hf⟩ := List.mem_flatMap.mp hb
      exact .inr (.inl ⟨k, (Graph.mem_living _).mp hk, hf⟩)
  supported id hs := by
    obtain ⟨root, hroot, hr⟩ := hs
    exact (firm h).alive_of_reaches hr ((firm h).alive_of_mem_holds hroot)
  cyclic hi id ha hs := h.exists_cycle hi ha hs
  acyclic hi hno id := by
    constructor
    · intro ha
      by_contra hs
      obtain ⟨c, hc, -⟩ := h.exists_cycle hi ha hs
      exact hno c hc
    · rintro ⟨root, hroot, hr⟩
      exact (firm h).alive_of_reaches hr ((firm h).alive_of_mem_holds hroot)
  computing id hid := (mirrored h).alive id hid
  dead earlier he id hd := by
    obtain ⟨hdead, hcalls⟩ := hd.of_mem h he
    refine ⟨hdead.alive_eq, fun hid => ?_, hdead.span?_ne, hcalls⟩
    exact absurd (hdead.alive_eq ▸ (mirrored h).alive id hid) Bool.false_ne_true
  kept later earlier before hp s _ := h.cell?_eq_or hp s

/-- A node that reads itself outlives its handle, and one that it alone holds lives with it. -/
theorem Run.lifetimes_selfLoop :
    ∃ past m, Run past m ∧ m.idle = true ∧ Lifetimes past m ∧ m.workspace.handles.holds = [] ∧
      m.graph.alive ⟨1⟩ = true ∧
        ∃ c, TransGen m.graph.Binds c c ∧ ReflTransGen m.graph.Binds c ⟨1⟩ := by
  have h₁ := Run.start.load (.edit (.create "loop" .identifier .add)) rfl
  have h₂ := h₁.move.load (.edit (.create "five" .identifier (.value (.ofInt 5)))) rfl
  have h₃ := h₂.move.load (.edit (.connect (.label "loop") "v1" (.output (.label "loop") "v"))) rfl
  have h₄ := h₃.move.load (.edit (.connect (.label "loop") "v2" (.output (.label "five") "v"))) rfl
  have h₅ := h₄.move.load (.edit (.dropNode "five")) rfl
  have h := (h₅.move.load (.edit (.dropNode "loop")) rfl).move
  refine ⟨_, _, h, rfl, h.lifetimes, rfl, rfl, h.lifetimes.cyclic rfl ⟨1⟩ rfl ?_⟩
  rintro ⟨root, hroot, -⟩
  exact List.not_mem_nil hroot

end PullGraph

import PullGraph.Proofs.Cell
import PullGraph.Proofs.Stack

/-!
# Laziness

Nothing but the read of an unset socket starts a compute, so a node whose outputs are all set never
computes again.

* `Machine.demands_of_entered`: what holds when a compute is started. `Machine.calls_move` says that
  only then a call is counted.
* `Machine.Filled`: all outputs of a node are set. It lasts (`Machine.Filled.move`).
* `Run.lazy`: both at every moment of every run.
-/

namespace PullGraph

/-! ## Calls -/

theorem Graph.calls_push {g : Graph} {node : Option Node} {id : NodeId}
    (h : ∀ n, node = some n → n.calls = 0) : (g.push node).calls id = g.calls id := by
  simp only [calls, node?_push]
  split
  · next e =>
    rw [e, node?_nextId]
    cases node with
    | none => rfl
    | some n => exact h n rfl
  · rfl

/-- A change starts no compute. -/
theorem Effect.calls_eq {scope : Scope} {w w' : Workspace} {write : Option Write}
    (h : Effect scope w write w') (id : NodeId) : w'.graph.calls id = w.graph.calls id := by
  cases h with
  | filled => exact Graph.calls_fill _ _ _ _
  | bound => exact Graph.calls_rewire _ _ _ _
  | created | numbered => exact Graph.calls_push fun n e => by cases e <;> rfl
  | _ => rfl

namespace Machine

variable {past : List Machine} {m m' : Machine} {id : NodeId}

/-- Only the read of an unset socket of a living node that is not computing starts a compute. -/
theorem demands_of_entered (h : m.span? = some (.entered id)) :
    ∃ s holding, m.Demands s holding ∧ s.owner = id ∧ m.graph.answer? s = none ∧
      m.move.stack = id :: m.stack ∧ m.move.graph.calls id = m.graph.calls id + 1 := by
  obtain ⟨w, outside, hg, ⟨hn, -⟩ | ⟨s, holding, he, hm, hd, ha, hw⟩ | ⟨s, hl, -⟩⟩ := m.move_cases
  · rw [hn] at h; cases h
  · rw [he] at h
    cases h
    refine ⟨s, holding, hd, rfl, ha, hm, ?_⟩
    rw [hg, Graph.calls_release, hw]
    exact Graph.calls_enter_self _ (Graph.answer?_eq_none_iff.mp ha).2.1
  · rw [hl] at h; cases h

theorem calls_move (h : m.span? ≠ some (.entered id)) :
    m.move.graph.calls id = m.graph.calls id := by
  obtain ⟨w, outside, hg, ⟨-, -, he⟩ | ⟨s, holding, he, -, -, -, hw⟩ | ⟨s, -, -, hw⟩⟩ := m.move_cases
  · rw [hg, Graph.calls_release]
    exact he.calls_eq id
  · rw [hg, Graph.calls_release, hw]
    exact Graph.calls_enter_of_ne _ fun hid => h (hid ▸ he)
  · rw [hg, Graph.calls_release, hw]
    exact Graph.calls_leave _ _ _

end Machine

/-! ## Nodes with all outputs set -/

/-- The names of the outputs of a node, if there is a record of it. -/
def Graph.names? (g : Graph) (id : NodeId) : Option (List String) :=
  (g.node? id).map (·.outputs.names)

theorem Graph.names?_update {g : Graph} {id other : NodeId} {change : Node → Node}
    (h : ∀ node, (change node).outputs.names = node.outputs.names) :
    (g.update id change).names? other = g.names? other :=
  map_node?_update h other

theorem Effect.names?_eq {scope : Scope} {w w' : Workspace} {write : Option Write}
    (h : Effect scope w write w') {id : NodeId} {names : List String}
    (hn : w.graph.names? id = some names) : w'.graph.names? id = some names := by
  cases h with
  | filled => exact (Graph.names?_update fun node => Outputs.names_write _ _ _).trans hn
  | bound => exact (Graph.names?_update fun node => by rfl).trans hn
  | created | numbered =>
    have hne : id ≠ w.graph.nextId := by
      rintro rfl
      simp [Graph.names?] at hn
    change (Graph.push _ _).names? id = _
    rw [Graph.names?, Graph.node?_push, if_neg hne]
    exact hn
  | _ => exact hn

namespace Machine

variable {past : List Machine} {m m' : Machine} {id : NodeId} {names : List String} {s : Socket}

theorem names?_move (hn : m.graph.names? id = some names) :
    m.move.graph.names? id = some names := by
  obtain ⟨w, outside, hg, hw⟩ := m.move_cases
  have hr : m.move.graph.names? id = w.graph.names? id := by
    rw [hg]
    exact Graph.map_node?_release _ (fun _ => by rfl) _ _
  rw [hr]
  obtain ⟨-, -, he⟩ | ⟨s, holding, -, -, -, -, hw⟩ | ⟨s, -, -, hw⟩ := hw
  · exact he.names?_eq hn
  · rw [hw]
    exact (Graph.names?_update fun node => by rfl).trans hn
  · rw [hw]
    exact (Graph.names?_update fun node => by rfl).trans hn

/-- All outputs of a node are set. -/
structure Filled (m : Machine) (id : NodeId) (names : List String) : Prop where
  names?_eq : m.graph.names? id = some names
  valid : ∀ name ∈ names, m.graph.state ⟨id, name⟩ = .valid

theorem Filled.cell?_ne_none (h : m.Filled id names) (hs : m.graph.Declares s)
    (ho : s.owner = id) : m.graph.cell? s ≠ none := by
  subst ho
  obtain ⟨node, hn, rfl⟩ := Option.map_eq_some_iff.mp h.names?_eq
  have hs : s.name ∈ node.outputs.names := by
    simpa [Graph.outputs, hn] using Graph.declares_iff.mp hs
  have hv := Graph.state_eq_valid.mp (h.valid s.name hs)
  exact Option.isSome_iff_ne_none.mp hv

/-- No compute of a node starts once all its outputs are set. -/
theorem Filled.span?_ne (h : m.Filled id names) (hr : Run past m) :
    m.span? ≠ some (.entered id) := by
  intro he
  obtain ⟨s, holding, hd, ho, ha, -⟩ := demands_of_entered he
  exact h.cell?_ne_none (hd.declares (wired hr)) ho (Graph.answer?_eq_none_iff.mp ha).1

theorem Filled.move (h : m.Filled id names) (hr : Run past m) : m.move.Filled id names where
  names?_eq := names?_move h.names?_eq
  valid name hn := hr.move.valid_of_valid List.mem_cons_self (h.valid name hn)

/-- What is filled stays filled, and no further call is counted. -/
theorem Filled.of_mem (hr : Run past m) {earlier : Machine} (he : earlier ∈ m :: past)
    (h : earlier.Filled id names) :
    m.Filled id names ∧ m.graph.calls id = earlier.graph.calls id := by
  rcases List.mem_cons.mp he with rfl | he
  · exact ⟨h, rfl⟩
  -- The two are kept together: the count stands still because what is filled starts no compute.
  refine hr.keep_of_mem (P := fun n => n.Filled id names ∧ n.graph.calls id = earlier.graph.calls id)
    he (fun past n hn hp => ?_) (fun past n action _ _ hp => ?_) ⟨h, rfl⟩
  · exact ⟨hp.1.move hn, (calls_move (hp.1.span?_ne hn)).trans hp.2⟩
  · exact ⟨⟨hp.1.names?_eq, hp.1.valid⟩, hp.2⟩

end Machine

/-! ## Runs -/

open Machine

/-- At a moment of a run computes are started by need only. -/
structure Lazy (past : List Machine) (m : Machine) : Prop where
  /-- A compute is started by the read of an unset output of a living node that is idle. -/
  entered : ∀ id, m.span? = some (.entered id) → ∃ s holding, m.Demands s holding ∧ s.owner = id ∧
    m.graph.Declares s ∧ m.graph.cell? s = none ∧ m.graph.alive id = true ∧
      m.graph.computing id = false
  calls_eq : ∀ id, m.move.graph.calls id =
    if m.span? = some (.entered id) then m.graph.calls id + 1 else m.graph.calls id
  /-- Once all outputs of a node are valid its computes are over, -/
  finished : ∀ earlier ∈ m :: past, ∀ id node, earlier.graph.node? id = some node →
    (∀ s ∈ earlier.graph.sockets id, earlier.graph.state s = .valid) →
      m.span? ≠ some (.entered id) ∧ m.graph.calls id = earlier.graph.calls id
  /-- and a read of any of them gives what the node wrote last, without a change. -/
  served : ∀ earlier ∈ m :: past, ∀ id node, earlier.graph.node? id = some node →
    (∀ s ∈ earlier.graph.sockets id, earlier.graph.state s = .valid) →
      ∀ s holding, m.Demands s holding → s.owner = id →
        ∃ v, ((writes past).find? fun write => write.Fills s).map (·.value) = some v ∧
          m.move.control = .returned (.ok v) ∧ m.move.workspace = m.workspace ∧
            m.move.stack = m.stack

variable {past : List Machine} {m : Machine}

theorem Machine.filled_of_valid {id : NodeId} {node : Node} (hn : m.graph.node? id = some node)
    (hv : ∀ s ∈ m.graph.sockets id, m.graph.state s = .valid) : m.Filled id node.outputs.names where
  names?_eq := by rw [Graph.names?, hn]; rfl
  valid name hname := by
    refine hv _ (List.mem_map.mpr ⟨name, ?_, rfl⟩)
    simpa [Graph.outputs, hn] using hname

/-- Computes are started by need, and never again where nothing is needed. -/
theorem Run.lazy (h : Run past m) : Lazy past m where
  entered id he := by
    obtain ⟨s, holding, hd, rfl, ha, -⟩ := demands_of_entered he
    obtain ⟨hc, hal, hcomp⟩ := Graph.answer?_eq_none_iff.mp ha
    exact ⟨s, holding, hd, rfl, hd.declares (wired h), hc, hal, hcomp⟩
  calls_eq id := by
    split
    · next he =>
      obtain ⟨s, holding, -, -, -, -, hc⟩ := demands_of_entered he
      exact hc
    · next he => exact calls_move he
  finished earlier he id node hn hv := by
    obtain ⟨hf, hc⟩ := Filled.of_mem h he (filled_of_valid hn hv)
    exact ⟨hf.span?_ne h, hc⟩
  served earlier he id node hn hv s holding hd ho := by
    obtain ⟨hf, -⟩ := Filled.of_mem h he (filled_of_valid hn hv)
    have hc := hf.cell?_ne_none (hd.declares (wired h)) ho
    obtain ⟨v, hv⟩ := Option.ne_none_iff_exists'.mp hc
    have ha : m.graph.answer? s = some (.ok v) := by simp [Graph.answer?, hv]
    obtain ⟨trace, e⟩ := h.move_of_answer hd ha
    refine ⟨v, by rw [← h.cell?_eq, hv], ?_⟩
    rw [e]
    exact ⟨rfl, m.workspace_setTask _, m.stack_setTask _⟩

/-- The second read of a constant starts no compute. -/
theorem Run.lazy_constant :
    ∃ past m, Run past m ∧ Lazy past m ∧ (∃ holding, m.Demands ⟨⟨0⟩, "v"⟩ holding) ∧
      m.span? ≠ some (.entered ⟨0⟩) ∧ m.graph.calls ⟨0⟩ = 1 := by
  have created := Run.start.load (.edit (.create "n" .identifier (.value (.ofInt 5)))) rfl
  have reading := created.move.load (.demand (.output (.label "n") "v") none) rfl
  have again := reading.move.move.move.move.load (.demand (.output (.label "n") "v") none) rfl
  have h := again.lazy
  refine ⟨_, _, again, h, ⟨some ⟨0⟩, rfl, _, _, _, _, rfl, rfl⟩, ?_, rfl⟩
  refine (h.finished _ List.mem_cons_self ⟨0⟩ _ rfl fun s hs => ?_).1
  obtain rfl : s = ⟨⟨0⟩, "v"⟩ := List.mem_singleton.mp hs
  rfl

end PullGraph

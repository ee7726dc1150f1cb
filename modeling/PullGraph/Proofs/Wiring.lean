import PullGraph.Proofs.Run

/-!
# Sockets that are declared

Sockets reach a step by way of bindings and handles. They are always sockets that their owners
declare, so a read or a write never misses its cell.

* `Workspace.Wired`: the bound and the kept sockets are declared. Every change keeps it
  (`Effect.wired`), and so it holds in every run (`Run.wired`).
* `Machine.Demands.declares`: the socket that a read is about is declared.
-/

namespace PullGraph

/-! ## What the operations leave alone -/

namespace Graph

variable {g : Graph} {id other : NodeId} {s : Socket} {v : Value}

@[simp] theorem logic_enter : (g.enter id).logic other = g.logic other := by
  unfold enter
  exact logic_congr (map_node?_update (fun _ => by rfl) other)

@[simp] theorem logic_leave : (g.leave id).logic other = g.logic other := by
  unfold leave
  exact logic_congr (map_node?_update (fun _ => by rfl) other)

@[simp] theorem logic_fill : (g.fill s v).logic id = g.logic id := by
  unfold fill
  exact logic_congr (map_node?_update (fun _ => by rfl) id)

@[simp] theorem logic_release (outside : List NodeId) : (g.release outside).logic id = g.logic id :=
  logic_congr (g.map_node?_release (fun _ => by rfl) outside id)

@[simp] theorem logic_rewire {inputs : Inputs} : (g.rewire id inputs).logic other = g.logic other := by
  unfold rewire
  exact logic_congr (map_node?_update (fun _ => by rfl) other)

theorem size_update {change : Node → Node} : (g.update id change).nodes.size = g.nodes.size := by
  simp [update]

theorem outputs_push {node : Option Node} :
    (g.push node).outputs id =
      if id = g.nextId then (node.map (·.outputs)).getD default else g.outputs id := by
  simp only [outputs, node?_push]
  split <;> rfl

theorem logic_push {node : Option Node} :
    (g.push node).logic id =
      if id = g.nextId then (node.map (·.logic)).getD default else g.logic id := by
  simp only [logic, node?_push]
  split <;> rfl

theorem inputs_push {node : Option Node} :
    (g.push node).inputs id =
      if id = g.nextId then (node.map (·.inputs)).getD default else g.inputs id := by
  simp only [inputs, node?_push]
  split <;> rfl

/-- Only identities that were given out own sockets. -/
theorem Declares.ne_nextId (h : g.Declares s) : s.owner ≠ g.nextId := by
  intro e
  have hn : s.name ∈ (g.outputs s.owner).names := declares_iff.mp h
  simp [outputs, e, Outputs.names, default, instInhabitedOutputs.default] at hn

end Graph

/-! ## Declarations -/

/-- All sockets that are bound to inputs, stored for inputs or kept are declared. -/
structure Workspace.Wired (w : Workspace) : Prop where
  names_eq : ∀ id, (w.graph.outputs id).names = (w.graph.logic id).outputNames
  bound : ∀ id s, some s ∈ (w.graph.inputs id).values → w.graph.Declares s
  stored : ∀ inputs ∈ w.handles.inputs.values, ∀ s, some s ∈ inputs.values → w.graph.Declares s
  kept : ∀ s ∈ w.handles.sockets.values, w.graph.Declares s

namespace Workspace.Wired

variable {w : Workspace} {s : Socket}

theorem declares_of_knows (h : w.Wired) (hs : w.Knows s) : w.graph.Declares s :=
  hs.elim id (h.kept s)

theorem declares_of_sees (h : w.Wired) {scope : Scope} {inputs : Inputs}
    (hi : scope.Sees w inputs) (hs : some s ∈ inputs.values) : w.graph.Declares s := by
  rcases hi with hi | ⟨id, -, rfl⟩
  · exact h.stored inputs hi s hs
  · exact h.bound id s hs

/-- What is wired stays so where no socket goes away and no other socket gets bound. -/
theorem setGraph (h : w.Wired) {g : Graph}
    (hn : ∀ id, (g.outputs id).names = (g.logic id).outputNames)
    (hd : ∀ s, w.graph.Declares s → g.Declares s)
    (hi : ∀ id s, some s ∈ (g.inputs id).values → g.Declares s) : (w.setGraph g).Wired :=
  ⟨hn, hi, fun i hm s hs => hd s (h.stored i hm s hs), fun s hs => hd s (h.kept s hs)⟩

theorem setGraph_congr (h : w.Wired) {g : Graph}
    (ho : ∀ id, (g.outputs id).names = (w.graph.outputs id).names)
    (hl : ∀ id, g.logic id = w.graph.logic id) (hi : ∀ id, g.inputs id = w.graph.inputs id) :
    (w.setGraph g).Wired := by
  refine h.setGraph (fun id => ?_) (fun s hs => ?_) fun id s hs => ?_
  · rw [ho, hl, h.names_eq]
  · exact (Graph.declares_congr (ho s.owner)).mpr hs
  · exact (Graph.declares_congr (ho s.owner)).mpr (h.bound id s (hi id ▸ hs))

theorem push (h : w.Wired) (node : Option Node)
    (hn : ∀ n, node = some n → n.outputs.names = n.logic.outputNames ∧ ∀ s, some s ∉ n.inputs.values) :
    (w.setGraph (w.graph.push node)).Wired := by
  have hd (s : Socket) (hs : w.graph.Declares s) : (w.graph.push node).Declares s := by
    refine (Graph.declares_congr (congrArg Outputs.names ?_)).mpr hs
    rw [Graph.outputs_push, if_neg hs.ne_nextId]
  refine h.setGraph (fun id => ?_) hd fun id s hs => ?_
  · rw [Graph.outputs_push, Graph.logic_push]
    split
    · cases node with
      | none => rfl
      | some n => exact (hn n rfl).1
    · exact h.names_eq id
  · rw [Graph.inputs_push] at hs
    split at hs
    · cases node with
      | none => simp [Inputs.values, default, instInhabitedInputs.default] at hs
      | some n => exact absurd hs ((hn n rfl).2 s)
    · exact hd s (h.bound id s hs)

end Workspace.Wired

/-- No change binds, stores or keeps a socket that is not declared. -/
theorem Effect.wired {scope : Scope} {w w' : Workspace} {write : Option Write}
    (h : Effect scope w write w') (hw : w.Wired) : w'.Wired := by
  cases h with
  | nothing | refused => exact hw
  | filled => exact hw.setGraph_congr (by simp) (by simp) (by simp)
  | @created policy logic label =>
    have hp := hw.push (some (.fresh logic (.unconnected logic.inputNames))) fun n e => by
      cases e
      exact ⟨Outputs.names_unset _, Inputs.not_mem_values_unconnected _⟩
    exact ⟨hp.names_eq, hp.bound, hp.stored, hp.kept⟩
  | numbered =>
    have hp := hw.push none fun n e => by cases e
    exact ⟨hp.names_eq, hp.bound, hp.stored, hp.kept⟩
  | @bound id key t inputs _ ht hi =>
    have hd (s : Socket) (hs : w.graph.Declares s) : (w.graph.rewire id inputs).Declares s :=
      (Graph.declares_congr (by rw [Graph.outputs_rewire])).mpr hs
    refine hw.setGraph (by simpa using hw.names_eq) hd fun other s hs => hd s ?_
    obtain ⟨e, rfl⟩ | e := w.graph.inputs_rewire id other inputs
    · rcases Inputs.mem_values_of_set hi (e ▸ hs) with hs | e
      · exact hw.bound other s hs
      · exact hw.declares_of_knows (ht s e)
    · exact hw.bound other s (e ▸ hs)
  | keptNode | droppedNode => exact ⟨hw.names_eq, hw.bound, hw.stored, hw.kept⟩
  | @keptSocket label s hs =>
    refine ⟨hw.names_eq, hw.bound, hw.stored, fun t ht => ?_⟩
    rcases Table.eq_or_mem_of_mem_insert ht with rfl | ht
    · exact hs
    · exact hw.kept t ht
  | droppedSocket =>
    exact ⟨hw.names_eq, hw.bound, hw.stored, fun t ht => hw.kept t (Table.mem_values_of_mem_erase ht)⟩
  | @keptInputs label inputs hi =>
    refine ⟨hw.names_eq, hw.bound, fun i hm s hs => ?_, hw.kept⟩
    rcases Table.eq_or_mem_of_mem_insert hm with rfl | hm
    -- What is stored is a copy of inputs within reach, or new, or was stored and had a name set.
    · rcases hi with hi | ⟨policy, names, hi⟩ | ⟨old, hold, key, t, ht, hi⟩
      · exact hw.declares_of_sees hi hs
      · obtain ⟨⟨⟩, -, hi⟩ := bind_eq_ok.mp hi
        cases pure_eq_ok.mp hi
        exact absurd hs (Inputs.not_mem_values_unconnected _ _)
      · rcases Inputs.mem_values_of_set hi hs with hs | e
        · exact hw.stored old hold s hs
        · exact hw.declares_of_knows (ht s e)
    · exact hw.stored i hm s hs
  | droppedInputs =>
    exact ⟨hw.names_eq, hw.bound, fun i hm => hw.stored i (Table.mem_values_of_mem_erase hm), hw.kept⟩

/-! ## Runs -/

namespace Machine

variable {past : List Machine} {m : Machine}

/-- In every run all sockets within reach are declared. -/
theorem wired (h : Run past m) : m.workspace.Wired := by
  refine h.turns (P := fun m => m.workspace.Wired) ?_ (fun m m' ih ht => ?_) fun _ _ ih _ => ?_
  · exact ⟨fun _ => rfl, fun id s hs => by
      simp [start, Workspace.empty, Graph.empty, Graph.inputs, Graph.node?, Inputs.values, default,
        instInhabitedInputs.default] at hs, fun i hi => by
      simp [start, Workspace.empty, Handles.empty, Table.values, Table.empty] at hi, fun s hs => by
      simp [start, Workspace.empty, Handles.empty, Table.values, Table.empty] at hs⟩
  · have hw' : m'.workspace.Wired := by
      obtain ⟨-, he⟩ | ⟨s, holding, -, -, -, e⟩ | ⟨s, -, e, -⟩ := ht.workspace_cases
      · exact he.wired ih
      · rw [e]; exact ih.setGraph_congr (by simp [graph]) (by simp [graph]) (by simp [graph])
      · rw [e]; exact ih.setGraph_congr (by simp [graph]) (by simp [graph]) (by simp [graph])
    exact hw'.setGraph_congr (by simp) (by simp) (by simp)
  · exact ih

/-- A read is about a socket that its owner declares. -/
theorem Demands.declares {s : Socket} {holding : Option NodeId} (h : m.Demands s holding)
    (hw : m.workspace.Wired) : m.graph.Declares s := by
  obtain ⟨-, d, into, attempt, rest, -, hd⟩ := h
  cases d with
  | output node name =>
    obtain ⟨id, -, hd⟩ := bind_eq_ok.mp hd
    obtain ⟨t, ht, hd⟩ := bind_eq_ok.mp hd
    cases pure_eq_ok.mp hd
    exact (Graph.output_eq_ok.mp (StepError.ofGraph_eq_ok.mp ht)).2
  | input node name =>
    obtain ⟨id, -, hd⟩ := bind_eq_ok.mp hd
    obtain ⟨t, ht, hd⟩ := bind_eq_ok.mp hd
    cases t with
    | none => cases hd
    | some t =>
      cases pure_eq_ok.mp hd
      exact hw.bound id s (Inputs.mem_values_of_get (StepError.ofGraph_eq_ok.mp ht))
  | optionalInput node name =>
    obtain ⟨id, -, hd⟩ := bind_eq_ok.mp hd
    obtain ⟨t, ht, hd⟩ := bind_eq_ok.mp hd
    cases pure_eq_ok.mp hd
    exact hw.bound id s (Inputs.mem_values_of_get (StepError.ofGraph_eq_ok.mp ht))
  | socket r =>
    obtain ⟨t, ht, hd⟩ := bind_eq_ok.mp hd
    cases pure_eq_ok.mp hd
    exact hw.declares_of_knows (Scope.knows_of_socket ht)

end Machine

end PullGraph

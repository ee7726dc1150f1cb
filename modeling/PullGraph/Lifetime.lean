import PullGraph.Handles

/-!
# Lifetimes

A node lives as long as something holds it: a handle, a binding of a living node or of a set of
inputs, or a step or compute that is at work on it. When the last holder goes the node dies, its own
bindings stop holding, and so on.

* `Graph.holders`: every hold there is, given the holds from outside the graph.
* `Graph.unheld`: the living nodes that nothing holds.
* `Graph.release`: lets unheld nodes die until none is left. Nodes that hold each other in a circle
  are held, so they stay.
* `Graph.unheld_release`: after that every living node is held.
-/

namespace PullGraph

namespace Graph

variable (g : Graph)

/-- The living nodes. -/
def living : List NodeId := ((List.range g.nodes.size).map NodeId.mk).filter g.alive

/-- Every hold on a node, from outside or by a binding of a living node. -/
def holders (outside : List NodeId) : List NodeId :=
  outside ++ g.living.flatMap fun id => (g.inputs id).feeders

/-- A mark for each identity up to `size` that is listed. -/
def marks (size : Nat) (ids : List NodeId) : Array Bool :=
  ids.foldl (fun marked id => marked.setIfInBounds id.ordinal true) (Array.replicate size false)

/-- The living nodes that nothing holds. -/
def unheld (outside : List NodeId) : List NodeId :=
  let held := marks g.nodes.size (g.holders outside)
  g.living.filter fun id => !held.getD id.ordinal false

/-- Ends the life of some nodes. -/
def kill (ids : List NodeId) : Graph :=
  ids.foldl (fun g id => g.update id fun node => { node with alive := false }) g

/-- Lets nodes die that nothing holds, in at most the given number of rounds. -/
def releaseRounds (outside : List NodeId) : Nat → Graph → Graph
  | 0, g => g
  | rounds + 1, g =>
    match g.unheld outside with
    | [] => g
    | dead => releaseRounds outside rounds (g.kill dead)

/-- Lets nodes die until every living one is held. A round that ends no life is the last, so there
are no more rounds than nodes. -/
def release (outside : List NodeId) : Graph := releaseRounds outside g.nodes.size g

/-! ## Who is alive and held -/

theorem alive_lt {id : NodeId} (h : g.alive id = true) : id.ordinal < g.nodes.size := by
  simp only [alive, node?] at h
  by_cases hlt : id.ordinal < g.nodes.size
  · exact hlt
  · simp [Array.getElem?_eq_none (Nat.le_of_not_lt hlt)] at h

@[simp] theorem mem_living {id : NodeId} : id ∈ g.living ↔ g.alive id = true := by
  simp only [living, List.mem_filter, List.mem_map, List.mem_range]
  refine ⟨fun h => h.2, fun h => ⟨⟨id.ordinal, g.alive_lt h, rfl⟩, h⟩⟩

theorem getD_marks {size : Nat} {ids : List NodeId} {k : Nat} (hk : k < size) :
    (marks size ids).getD k false = true ↔ NodeId.mk k ∈ ids := by
  have h : ∀ marked : Array Bool, k < marked.size →
      ((ids.foldl (fun marked id => marked.setIfInBounds id.ordinal true) marked).getD k false
        = true ↔ NodeId.mk k ∈ ids ∨ marked.getD k false = true) := by
    induction ids with
    | nil => simp
    | cons id rest ih =>
      intro marked hm
      obtain ⟨i⟩ := id
      rw [List.foldl_cons, ih _ (by simpa using hm)]
      by_cases hi : i = k
      · subst hi
        simp [Array.getD, hm]
      · simp [Array.getD, hm, hi, Ne.symm hi]
  have h0 := h (Array.replicate size false) (by simpa using hk)
  rw [show (Array.replicate size false).getD k false = false by simp [Array.getD, hk]] at h0
  simpa only [marks, Bool.false_eq_true, or_false] using h0

theorem mem_unheld {outside : List NodeId} {id : NodeId} :
    id ∈ g.unheld outside ↔ g.alive id = true ∧ id ∉ g.holders outside := by
  simp only [unheld, List.mem_filter, mem_living, Bool.not_eq_true', ← Bool.not_eq_true]
  refine and_congr_right fun h => not_congr ?_
  exact getD_marks (g.alive_lt h)

theorem node?_kill (ids : List NodeId) (id : NodeId) :
    (g.kill ids).node? id = (g.node? id).map fun node =>
      if id ∈ ids then { node with alive := false } else node := by
  induction ids generalizing g with
  | nil => simp [kill]
  | cons dead rest ih =>
    rw [show g.kill (dead :: rest) =
      (g.update dead fun node => { node with alive := false }).kill rest from rfl, ih]
    by_cases h : id = dead
    · subst h
      cases hn : g.node? id <;> simp [hn]
    · cases hn : g.node? id <;> simp [node?_update_of_ne _ _ h, h, hn]

theorem alive_kill {ids : List NodeId} {id : NodeId} :
    (g.kill ids).alive id = true ↔ g.alive id = true ∧ id ∉ ids := by
  simp only [alive, node?_kill]
  rcases g.node? id with _ | node
  · simp
  · by_cases h : id ∈ ids <;> simp [h]

theorem size_kill (ids : List NodeId) : (g.kill ids).nodes.size = g.nodes.size := by
  induction ids generalizing g with
  | nil => rfl
  | cons dead rest ih =>
    rw [show g.kill (dead :: rest) =
      (g.update dead fun node => { node with alive := false }).kill rest from rfl, ih]
    simp [update]

/-- The living nodes are those that were not killed. -/
theorem living_kill (ids : List NodeId) :
    (g.kill ids).living = g.living.filter (· ∉ ids) := by
  simp only [living, size_kill, List.filter_filter]
  refine List.filter_congr fun id _ => ?_
  rw [Bool.eq_iff_iff, alive_kill]
  simp [and_comm]

theorem unheld_releaseRounds {outside : List NodeId} {rounds : Nat}
    (h : g.living.length ≤ rounds) : (releaseRounds outside rounds g).unheld outside = [] := by
  induction rounds generalizing g with
  | zero =>
    have hl : g.living = [] := List.eq_nil_of_length_eq_zero (Nat.le_zero.mp h)
    simp [releaseRounds, unheld, hl]
  | succ rounds ih =>
    simp only [releaseRounds]
    split
    · next hu => exact hu
    · next dead hne =>
      refine ih _ ?_
      obtain ⟨id, hid⟩ := List.exists_mem_of_ne_nil _ hne
      rw [living_kill]
      have hlt : (g.living.filter (· ∉ g.unheld outside)).length < g.living.length :=
        List.length_filter_lt_length_iff_exists.mpr
          ⟨id, g.mem_living.mpr (g.mem_unheld.mp hid).1, by simpa using hid⟩
      omega

/-- After a release every living node is held. -/
theorem unheld_release (outside : List NodeId) : (g.release outside).unheld outside = [] := by
  refine g.unheld_releaseRounds ?_
  exact Nat.le_trans (List.length_filter_le _ _) (by simp)

/-! ## What a release leaves alone -/

/-- A killing changes nothing of a record but whether the node is alive. -/
theorem map_node?_kill {α : Type} {f : Node → α}
    (h : ∀ node, f { node with alive := false } = f node) (ids : List NodeId) (id : NodeId) :
    ((g.kill ids).node? id).map f = (g.node? id).map f := by
  rw [node?_kill]
  cases g.node? id with
  | none => rfl
  | some node => by_cases hid : id ∈ ids <;> simp [hid, h]

/-- A release kills nodes, and none that is held from outside. -/
theorem exists_release_eq_kill (outside : List NodeId) :
    ∃ dead, g.release outside = g.kill dead ∧ ∀ id ∈ dead, id ∉ outside := by
  have h : ∀ rounds, ∃ dead,
      releaseRounds outside rounds g = g.kill dead ∧ ∀ id ∈ dead, id ∉ outside := by
    intro rounds
    induction rounds generalizing g with
    | zero => exact ⟨[], rfl, by simp⟩
    | succ rounds ih =>
      simp only [releaseRounds]
      split
      · exact ⟨[], rfl, by simp⟩
      · obtain ⟨dead, e, hd⟩ := ih (g.kill (g.unheld outside))
        refine ⟨g.unheld outside ++ dead, ?_, fun id hid => ?_⟩
        · rw [e]; simp only [kill, List.foldl_append]
        · rcases List.mem_append.mp hid with hu | hid
          · exact fun ho => (g.mem_unheld.mp hu).2 (List.mem_append_left _ ho)
          · exact hd id hid
  exact h g.nodes.size

theorem map_node?_release {α : Type} {f : Node → α}
    (h : ∀ node, f { node with alive := false } = f node) (outside : List NodeId) (id : NodeId) :
    ((g.release outside).node? id).map f = (g.node? id).map f := by
  obtain ⟨dead, e, -⟩ := g.exists_release_eq_kill outside
  rw [e, g.map_node?_kill h]

/-- The dead stay dead. -/
theorem alive_of_alive_release {outside : List NodeId} {id : NodeId}
    (h : (g.release outside).alive id = true) : g.alive id = true := by
  obtain ⟨dead, e, -⟩ := g.exists_release_eq_kill outside
  rw [e] at h
  exact (g.alive_kill.mp h).1

/-- What is held from outside does not die. -/
theorem alive_release_of_mem {outside : List NodeId} {id : NodeId} (h : id ∈ outside) :
    (g.release outside).alive id = g.alive id := by
  obtain ⟨dead, e, hd⟩ := g.exists_release_eq_kill outside
  rw [e, Bool.eq_iff_iff, alive_kill]
  exact ⟨And.left, fun ha => ⟨ha, fun hid => hd id hid h⟩⟩

@[simp] theorem inputs_release (outside : List NodeId) (id : NodeId) :
    (g.release outside).inputs id = g.inputs id :=
  inputs_congr (g.map_node?_release (fun _ => by rfl) outside id)

@[simp] theorem outputs_release (outside : List NodeId) (id : NodeId) :
    (g.release outside).outputs id = g.outputs id :=
  outputs_congr (g.map_node?_release (fun _ => by rfl) outside id)

@[simp] theorem cell?_release (outside : List NodeId) (s : Socket) :
    (g.release outside).cell? s = g.cell? s :=
  cell?_congr (g.map_node?_release (fun _ => by rfl) outside s.owner)

@[simp] theorem calls_release (outside : List NodeId) (id : NodeId) :
    (g.release outside).calls id = g.calls id :=
  calls_congr (g.map_node?_release (fun _ => by rfl) outside id)

variable {g} in
/-- Another holder keeps no node from being held. -/
theorem unheld_eq_nil_of_subset {outside more : List NodeId} (h : g.unheld outside = [])
    (hs : outside ⊆ more) : g.unheld more = [] := by
  refine List.eq_nil_iff_forall_not_mem.mpr fun id hid => ?_
  obtain ⟨ha, hn⟩ := g.mem_unheld.mp hid
  have hin : id ∈ g.unheld outside := g.mem_unheld.mpr ⟨ha, fun ho => hn ?_⟩
  · simp [h] at hin
  · rcases List.mem_append.mp ho with ho | ho
    · exact List.mem_append_left _ (hs ho)
    · exact List.mem_append_right _ ho

variable {g} in
/-- Whether all living nodes are held depends on the living nodes and their bindings only. -/
theorem unheld_eq_nil_of_congr {g' : Graph} {outside : List NodeId}
    (ha : ∀ id, g'.alive id = g.alive id) (hi : ∀ id, g'.inputs id = g.inputs id)
    (h : g.unheld outside = []) : g'.unheld outside = [] := by
  refine List.eq_nil_iff_forall_not_mem.mpr fun id hid => ?_
  obtain ⟨hal, hn⟩ := g'.mem_unheld.mp hid
  refine List.not_mem_nil (h ▸ g.mem_unheld.mpr ⟨ha id ▸ hal, fun ho => hn ?_⟩)
  rcases List.mem_append.mp ho with ho | ho
  · exact List.mem_append_left _ ho
  · obtain ⟨other, hl, hf⟩ := List.mem_flatMap.mp ho
    refine List.mem_append_right _ (List.mem_flatMap.mpr ⟨other, ?_, (hi other).symm ▸ hf⟩)
    exact g'.mem_living.mpr ((ha other).trans (g.mem_living.mp hl))

/-- Where every living node is held, nothing dies. -/
theorem release_eq_self {outside : List NodeId} (h : g.unheld outside = []) :
    g.release outside = g := by
  simp only [release]
  cases g.nodes.size with
  | zero => rfl
  | succ n => simp [releaseRounds, h]

end Graph

/-- Lets the nodes of a workspace die that neither its handles nor `others` hold. -/
def Workspace.release (w : Workspace) (others : List NodeId) : Workspace :=
  w.setGraph (w.graph.release (w.handles.holds ++ others))

end PullGraph

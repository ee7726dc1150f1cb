import PullGraph.Proofs.Pull

/-!
# Reads side by side

A read sees the nodes upstream of its socket and the cells that they are bound to without a hold,
and nothing else. Where two machines agree on these, they go through the same moves.

* `Graph.Agrees`: two graphs have the same records for some nodes, and the same cells for some
  sockets of dead nodes.
* `Machine.Twin`: two machines in the middle of the same computes of such nodes.
  `Machine.Twin.advance` and `Machine.Twin.resume` say that they go on in the same way, from one
  lemma for each part of a move.
* `Graph.SameUpstream`: what two graphs have in common where the rest of them has no influence on
  the reads of a node.
* `Machine.Alike`: two runs at rest with such graphs. `Machine.Alike.move` is the step and
  `Machine.Alike.leads` the run of two reads side by side; `Machine.Alike.exists_reads` gives their
  one outcome.
* `Run.insulated`: such reads come to the same, and leave the same behind.
-/

namespace PullGraph

open Relation

variable {P : NodeId → Prop} {D : Socket → Prop}

/-! ## Graphs that agree in part -/

/-- A node that outlives a release keeps its record. -/
theorem Graph.node?_release {g : Graph} {outside : List NodeId} {id : NodeId}
    (ha : (g.release outside).alive id = true) :
    (g.release outside).node? id = g.node? id := by
  obtain ⟨dead, e, -⟩ := g.exists_release_eq_kill outside
  rw [e] at ha ⊢
  have hn : id ∉ dead := ((alive_kill g).mp ha).2
  rw [node?_kill]
  cases g.node? id <;> simp [hn]

/-- Two graphs have the same records of the nodes in `P`, and the same cells of the sockets in `D`,
whose owners are dead. -/
structure Graph.Agrees (P : NodeId → Prop) (D : Socket → Prop) (g g' : Graph) : Prop where
  node?_eq : ∀ id, P id → g'.node? id = g.node? id
  cell?_eq : ∀ s, D s → g'.cell? s = g.cell? s
  dead : ∀ s, D s → g.alive s.owner = false ∧ g'.alive s.owner = false

namespace Graph.Agrees

variable {g g' : Graph} {id : NodeId} {s : Socket}

theorem cell?_eq_of_owner (h : g.Agrees P D g') (hs : P s.owner) : g'.cell? s = g.cell? s := by
  simp only [cell?, h.node?_eq _ hs]

/-- The read of a socket sees the same in both. -/
theorem demanded (h : g.Agrees P D g') (hs : P s.owner ∨ D s) :
    g'.cell? s = g.cell? s ∧ g'.alive s.owner = g.alive s.owner ∧
      g'.computing s.owner = g.computing s.owner := by
  rcases hs with hs | hs
  · exact ⟨h.cell?_eq_of_owner hs, by simp only [alive, h.node?_eq _ hs],
      by simp only [computing, h.node?_eq _ hs]⟩
  · obtain ⟨hd, hd'⟩ := h.dead s hs
    refine ⟨h.cell?_eq s hs, hd'.trans hd.symm, ?_⟩
    rw [computing_eq, computing_eq, hd, hd', Bool.false_and, Bool.false_and]

/-- The same change of a shared record keeps the agreement, if it ends no life. -/
theorem update (h : g.Agrees P D g') (hid : P id) {change : Node → Node}
    (hc : ∀ node, (change node).alive = node.alive) :
    (g.update id change).Agrees P D (g'.update id change) := by
  have hn (k : NodeId) (hk : P k) :
      (g'.update id change).node? k = (g.update id change).node? k := by
    rw [node?_update, node?_update, h.node?_eq id hid, h.node?_eq k hk]
  refine ⟨hn, fun s hs => ?_, fun s hs => ?_⟩
  · by_cases ho : s.owner = id
    · simp only [cell?, hn s.owner (ho ▸ hid)]
    · have hcell := h.cell?_eq s hs
      simp only [cell?, node?_update_of_ne _ _ ho] at hcell ⊢
      exact hcell
  · obtain ⟨hd, hd'⟩ := h.dead s hs
    exact ⟨(alive_congr (map_node?_update hc _)).trans hd,
      (alive_congr (map_node?_update hc _)).trans hd'⟩

/-- So do deaths that leave the shared nodes alive. -/
theorem release (h : g.Agrees P D g') {outside outside' : List NodeId}
    (ha : ∀ id, P id → (g.release outside).alive id = true)
    (ha' : ∀ id, P id → (g'.release outside').alive id = true) :
    (g.release outside).Agrees P D (g'.release outside') := by
  have hdead {g : Graph} {outside : List NodeId} {id : NodeId} (hd : g.alive id = false) :
      (g.release outside).alive id = false := by
    rw [← Bool.not_eq_true] at hd ⊢
    exact fun ha => hd (g.alive_of_alive_release ha)
  refine ⟨fun id hid => ?_, fun s hs => ?_, fun s hs => ?_⟩
  · rw [node?_release (ha id hid), node?_release (ha' id hid), h.node?_eq id hid]
  · rw [cell?_release, cell?_release, h.cell?_eq s hs]
  · exact ⟨hdead (h.dead s hs).1, hdead (h.dead s hs).2⟩

end Graph.Agrees

/-! ## Events -/

/-- The computes that an event tells of are computes of nodes in `P`. -/
def Event.About (P : NodeId → Prop) : Event → Prop
  | .log _ => True
  | .called id _ => P id
  | .did who _ _ => ∀ id, who = some id → P id

/-- Whether an event is reported depends on the kind of the node that it is about. -/
theorem Graph.reports_congr {g g' : Graph} {e : Event} (he : e.About P)
    (hl : ∀ id, P id → g'.logic id = g.logic id) : g'.reports e = g.reports e := by
  cases e with
  | log => rfl
  | called id => simp only [reports, hl id he]
  | did who =>
    cases who with
    | none => rfl
    | some id => simp only [reports, hl id (he id rfl)]

/-! ## Machines side by side -/

namespace Machine

/-- Two machines are in the middle of the same computes, all of nodes whose records they share, and
the same has happened so far. -/
structure Twin (P : NodeId → Prop) (D : Socket → Prop) (m m' : Machine) : Prop where
  agrees : m.graph.Agrees P D m'.graph
  frames_eq : m'.frames = m.frames
  control_eq : m'.control = m.control
  trace_eq : m'.trace = m.trace
  within : ∀ f ∈ m.frames, P f.node
  about : ∀ e ∈ m.trace, e.About P

namespace Twin

variable {m m' : Machine} {f : Frame} {rest : List Frame} {s : Socket}

theorem task_eq (h : m.Twin P D m') (hne : m.frames ≠ []) : m'.task = m.task := by
  obtain ⟨f, rest, hf⟩ := List.exists_cons_of_ne_nil hne
  rw [task_of_cons hf, task_of_cons (h.frames_eq.trans hf)]

theorem within_head (h : m.Twin P D m') (hf : m.frames = f :: rest) : P f.node :=
  h.within f (hf ▸ List.mem_cons_self)

theorem current_eq (h : m.Twin P D m') : m'.current = m.current := by
  simp only [current, h.frames_eq]

theorem scope_eq (h : m.Twin P D m') (hne : m.frames ≠ []) : m'.scope = m.scope := by
  simp only [scope, h.current_eq, h.task_eq hne]

/-! ### Parts of a move -/

theorem tell (h : m.Twin P D m') {e : Event} (he : e.About P) : (m.tell e).Twin P D (m'.tell e) :=
  ⟨h.agrees, h.frames_eq, h.control_eq, congrArg (e :: ·) h.trace_eq, h.within,
    List.forall_mem_cons.mpr ⟨he, h.about⟩⟩

theorem log (h : m.Twin P D m') (record : Record) :
    (m.tell (.log record)).Twin P D (m'.tell (.log record)) := h.tell trivial

theorem control (h : m.Twin P D m') (c : Control) :
    Twin P D { m with control := c } { m' with control := c } :=
  ⟨h.agrees, h.frames_eq, rfl, h.trace_eq, h.within, h.about⟩

/-- The innermost tasks may change, in the same way if they are those of a compute. -/
theorem setTask (h : m.Twin P D m') {t t' : Task} (ht : m.frames ≠ [] → t' = t) :
    (m.setTask t).Twin P D (m'.setTask t') := by
  obtain ⟨w, base, frames, control, trace⟩ := m
  obtain ⟨w', base', frames', control', trace'⟩ := m'
  obtain ⟨ha, rfl, rfl, rfl, hw, he⟩ := h
  cases frames' with
  | nil => exact ⟨ha, rfl, rfl, rfl, hw, he⟩
  | cons f rest =>
    obtain rfl := ht (List.cons_ne_nil _ _)
    refine ⟨ha, rfl, rfl, rfl, fun f' hf' => ?_, he⟩
    rcases List.mem_cons.mp hf' with rfl | hf'
    · exact hw f List.mem_cons_self
    · exact hw f' (List.mem_cons_of_mem _ hf')

theorem next (h : m.Twin P D m') : m.next.Twin P D m'.next :=
  (h.setTask fun hne => by rw [h.task_eq hne]).control .running

theorem leave (h : m.Twin P D m') (hf : m.frames = f :: rest) (outcome : Except GraphError Value) :
    (m.leave f rest outcome).Twin P D (m'.leave f rest outcome) where
  agrees := h.agrees.update (h.within_head hf) fun _ => rfl
  frames_eq := rfl
  control_eq := rfl
  trace_eq := h.trace_eq
  within f' hf' := h.within f' (hf ▸ List.mem_cons_of_mem _ hf')
  about := h.about

theorem enter (h : m.Twin P D m') (hs : P s.owner) : (m.enter s).Twin P D (m'.enter s) := by
  have hl : m'.graph.logic s.owner = m.graph.logic s.owner := by
    simp only [Graph.logic, h.agrees.node?_eq _ hs]
  have hc : m'.graph.calls s.owner = m.graph.calls s.owner := by
    simp only [Graph.calls, h.agrees.node?_eq _ hs]
  refine ⟨h.agrees.update hs fun _ => rfl, ?_, rfl, ?_, fun f hf => ?_, fun e he => ?_⟩
  · change _ :: m'.frames = _ :: m.frames
    rw [hl, hc, h.frames_eq]
  · change _ :: _ :: m'.trace = _ :: _ :: m.trace
    rw [hl, hc, h.trace_eq]
  · rcases List.mem_cons.mp hf with rfl | hf
    · exact hs
    · exact h.within f hf
  · rcases List.mem_cons.mp he with rfl | he
    · exact hs
    · exact (h.log (.computing s.owner (m.graph.logic s.owner).typeName)).about e he

/-- A read is answered in the same way, or starts the same compute. -/
theorem demand (h : m.Twin P D m') (hs : P s.owner ∨ D s) :
    (m.demand s).Twin P D (m'.demand s) := by
  obtain ⟨hcell, hal, hcomp⟩ := h.agrees.demanded hs
  unfold Machine.demand
  rw [hcell, hal, hcomp]
  cases hv : m.graph.cell? s with
  | some v => exact (h.log _).control _
  | none =>
    cases ha : m.graph.alive s.owner with
    | false => exact h.control _
    | true =>
      cases hc : m.graph.computing s.owner with
      | true => exact (h.log _).control _
      | false =>
        -- The owner lives, so the socket is none of those in `D`.
        refine h.enter (hs.resolve_right fun hd => ?_)
        rw [(h.agrees.dead s hd).1] at ha
        cases ha

theorem conclude (h : m.Twin P D m') (action : Action) (attempt : Bool) (result : Result) :
    (m.conclude action attempt result).Twin P D (m'.conclude action attempt result) := by
  have ht := h.tell (e := .did m.current action result) fun id hid => by
    obtain ⟨f, hf, rfl⟩ := Option.map_eq_some_iff.mp hid
    exact h.within f (List.mem_of_mem_head? hf)
  unfold Machine.conclude
  rw [h.current_eq]
  dsimp only
  rw [ht.frames_eq]
  split
  · next hf => exact ht.leave hf _
  · exact ht.next

theorem complete (h : m.Twin P D m') (hf : m.frames = f :: rest) :
    (m.complete f rest).Twin P D (m'.complete f rest) := by
  have hcell : m'.graph.cell? f.demanded = m.graph.cell? f.demanded :=
    h.agrees.cell?_eq_of_owner (h.within_head hf)
  have htype : m'.graph.typeName f.node = m.graph.typeName f.node := by
    simp only [Graph.typeName, h.agrees.node?_eq _ (h.within_head hf)]
  unfold Machine.complete
  simp only [graph_tell, hcell, htype]
  cases m.graph.cell? f.demanded with
  | some v => exact (h.log _).leave hf _
  | none => exact ((h.log _).log _).leave hf _

theorem keep (h : m.Twin P D m') (action : Action) (v : Value) :
    (m.keep action v).Twin P D (m'.keep action v) := by
  unfold Machine.keep
  split
  · exact h.setTask fun hne => by rw [h.task_eq hne]
  · exact h

/-- Deaths that leave the shared nodes alive change nothing. -/
theorem settle (h : m.Twin P D m') (ha : ∀ id, P id → m.settle.graph.alive id = true)
    (ha' : ∀ id, P id → m'.settle.graph.alive id = true) : m.settle.Twin P D m'.settle :=
  ⟨h.agrees.release ha ha', h.frames_eq, h.control_eq, h.trace_eq, h.within, h.about⟩

/-! ### Moves -/

/-- The outcome of a read arrives in both. -/
theorem resume (h : m.Twin P D m') (hne : m.frames ≠ []) (outcome : Except GraphError Value) :
    (m.resume outcome).Twin P D (m'.resume outcome) := by
  unfold Machine.resume
  rw [h.task_eq hne]
  split
  · cases outcome with
    | ok v => exact (h.keep _ v).conclude _ _ _
    | error e => exact h.conclude _ _ _
  · exact h.next

section Step

variable {reads : String → Prop} (h : m.Twin P D m') (hf : m.frames = f :: rest)
  (hd : ∀ name t, (m.graph.inputs f.node).get name = .ok (some t) → P t.owner ∨ D t)

include h hf hd

/-- A compute takes the same step in both. -/
theorem perform {action : Action} {attempt : Bool} (hi : Instr.Own reads (.act action attempt)) :
    (m.perform action attempt).Twin P D (m'.perform action attempt) := by
  have hne : m.frames ≠ [] := hf ▸ List.cons_ne_nil _ _
  have hid := h.within_head hf
  have hbegin := hi.begin_agree (h.agrees.node?_eq _ hid) f.task.call f.task.registers
  rw [← scope_of_cons hf] at hbegin
  unfold Machine.perform
  rw [h.scope_eq hne]
  -- The record of the node is the same in both, so the step begins in the same way.
  obtain ⟨e, hb, hb'⟩ | ⟨hb, hb'⟩ | ⟨s, v, hs, -, hb, hb'⟩ | ⟨d, into, name, t, -, -, hg, hb, hb'⟩ :=
    hbegin
  · rw [hb, hb']
    exact h.conclude _ _ _
  · rw [hb, hb']
    exact h.conclude _ _ _
  · rw [hb, hb']
    have hfill : Twin P D { m with workspace := m.workspace.setGraph (m.graph.fill s v) }
        { m' with workspace := m'.workspace.setGraph (m'.graph.fill s v) } :=
      ⟨h.agrees.update (hs ▸ hid) fun _ => rfl, h.frames_eq, h.control_eq, h.trace_eq, h.within,
        h.about⟩
    exact hfill.conclude _ _ _
  · rw [hb, hb']
    exact (h.setTask fun hne => by rw [h.task_eq hne]).demand (hd name t hg)

/-- The innermost compute goes on in the same way in both. -/
theorem advance (hown : ∀ i ∈ f.task.todo, i.Own reads) : m.advance.Twin P D m'.advance := by
  have hne : m.frames ≠ [] := hf ▸ List.cons_ne_nil _ _
  unfold Machine.advance
  rw [h.task_eq hne, h.scope_eq hne, h.frames_eq, task_of_cons hf]
  split
  · next action attempt steps ht =>
    exact h.perform hf hd (hown _ (ht ▸ List.mem_cons_self))
  · exact h.setTask fun _ => rfl
  · rw [hf]
    exact h.complete hf

end Step

end Twin

end Machine

/-! ## Upstream of a node -/

/-- A node upstream of the root is bound to the socket, whose owner is dead. -/
def Graph.Severed (g : Graph) (root : NodeId) (s : Socket) : Prop :=
  g.alive s.owner = false ∧
    ∃ id, ReflTransGen g.Binds root id ∧ ∃ b ∈ (g.inputs id).bindings, b.socket = s

/-- Upstream of a node two graphs are the same: in kinds, calls, bindings and cells, and in the
cells of dead nodes that bindings lead to. -/
structure Graph.SameUpstream (g g' : Graph) (root : NodeId) : Prop where
  logic_eq : ∀ id, ReflTransGen g.Binds root id → g'.logic id = g.logic id
  calls_eq : ∀ id, ReflTransGen g.Binds root id → g'.calls id = g.calls id
  inputs_eq : ∀ id, ReflTransGen g.Binds root id → g'.inputs id = g.inputs id
  outputs_eq : ∀ id, ReflTransGen g.Binds root id → g'.outputs id = g.outputs id
  cell?_eq : ∀ s, g.Severed root s → g'.cell? s = g.cell? s

namespace Graph

variable {g g' : Graph} {id root : NodeId}

/-- A record is the sum of its parts. -/
theorem node?_congr (ha : g.alive id = true) (ha' : g'.alive id = true)
    (hl : g'.logic id = g.logic id) (hi : g'.inputs id = g.inputs id)
    (ho : g'.outputs id = g.outputs id) (hc : g'.calls id = g.calls id)
    (hb : g'.busy id = g.busy id) : g'.node? id = g.node? id := by
  unfold alive at ha ha'
  unfold logic inputs outputs calls busy at *
  cases hn : g.node? id with
  | none => simp [hn] at ha
  | some node =>
    cases hn' : g'.node? id with
    | none => simp [hn'] at ha'
    | some node' =>
      obtain ⟨logic, inputs, outputs, computing, calls, alive⟩ := node
      obtain ⟨logic', inputs', outputs', computing', calls', alive'⟩ := node'
      simp_all

namespace SameUpstream

theorem of_node? (hn : ∀ id, ReflTransGen g.Binds root id → g'.node? id = g.node? id)
    (hc : ∀ s, g.Severed root s → g'.cell? s = g.cell? s) : g.SameUpstream g' root where
  logic_eq id hid := by simp only [logic, hn id hid]
  calls_eq id hid := by simp only [calls, hn id hid]
  inputs_eq id hid := by simp only [inputs, hn id hid]
  outputs_eq id hid := by simp only [outputs, hn id hid]
  cell?_eq := hc

/-- The same nodes are upstream in both. -/
theorem reaches_iff (h : g.SameUpstream g' root)
    (hb : ∀ id other, g.Binds id other → g.alive other = true)
    (hb' : ∀ id other, g'.Binds id other → g'.alive other = true) (ha : g.alive root = true)
    (ha' : g'.alive root = true) :
    ReflTransGen g'.Binds root id ↔ ReflTransGen g.Binds root id := by
  constructor
  · intro hr
    induction hr with
    | refl => exact .refl
    | tail _ hbinds ih =>
      exact ih.tail ⟨alive_of_reflTransGen hb ha ih, h.inputs_eq _ ih ▸ hbinds.2⟩
  · intro hr
    induction hr with
    | refl => exact .refl
    | tail hr hbinds ih =>
      exact ih.tail ⟨alive_of_reflTransGen hb' ha' ih, (h.inputs_eq _ hr).symm ▸ hbinds.2⟩

end SameUpstream

end Graph

theorem Workspace.Grows.binds_eq {w₀ w : Workspace} (h : w₀.Grows w) :
    w.graph.Binds = w₀.graph.Binds := by
  funext id other
  simp only [Graph.Binds, h.alive_eq, h.inputs_eq]

/-! ## Reads in two runs -/

namespace Machine

/-- A read is under way in two machines at once, and began at workspaces that agree upstream. -/
structure Beside (w₀ w₀' : Workspace) (root : NodeId) (m m' : Machine) : Prop where
  twin : m.Twin (ReflTransGen w₀.graph.Binds root) (w₀.graph.Severed root) m'
  pulls : m.Pulls w₀ root fun _ _ => True
  pulls' : m'.Pulls w₀' root fun _ _ => True

variable {past past' before before' : List Machine} {m m' n n' k k' : Machine} {root id : NodeId}
  {s : Socket}

/-- What a compute upstream reads is upstream too, or it is severed. -/
theorem Pulls.upstream_or_severed {w₀ : Workspace} {reads : NodeId → String → Prop}
    (h : n.Pulls w₀ root reads) (hr : Run past n) (hid : id ∈ n.stack) {name : String}
    (hg : (n.graph.inputs id).get name = .ok (some s)) :
    ReflTransGen w₀.graph.Binds root s.owner ∨ w₀.graph.Severed root s := by
  obtain ⟨slot, hs, -, ⟨-, -, hb⟩ | ⟨hb, hdead⟩⟩ := h.exists_feeder hr hid hg
  · exact .inl ((h.upstream id hid).tail hb)
  · exact .inr ⟨hdead, id, h.upstream id hid, _, List.mem_filterMap.mpr ⟨slot, hs, hb⟩, rfl⟩

/-- Two runs have come to rest, and upstream of a node that lives in both they are the same and have
own steps only. -/
structure Alike (past past' : List Machine) (m m' : Machine) (root : NodeId) : Prop where
  run : Run past m
  run' : Run past' m'
  idle : m.idle = true
  idle' : m'.idle = true
  alive : m.graph.alive root = true
  alive' : m'.graph.alive root = true
  own : ∀ id, ReflTransGen m.graph.Binds root id → (m.graph.logic id).OwnInput fun _ => True
  same : m.graph.SameUpstream m'.graph root

namespace Alike

variable (h : Alike past past' m m' root)

include h

theorem upstream_iff : ReflTransGen m'.graph.Binds root id ↔ ReflTransGen m.graph.Binds root id :=
  h.same.reaches_iff (firm h.run).bound (firm h.run').bound h.alive h.alive'

/-- Nodes upstream live in both. -/
theorem alive_of_upstream (hid : ReflTransGen m.graph.Binds root id) :
    m.graph.alive id = true ∧ m'.graph.alive id = true :=
  ⟨(firm h.run).alive_of_reaches hid h.alive,
    (firm h.run').alive_of_reaches (h.upstream_iff.mpr hid) h.alive'⟩

theorem own' (hid : ReflTransGen m'.graph.Binds root id) :
    (m'.graph.logic id).OwnInput fun _ => True := by
  rw [h.same.logic_eq id (h.upstream_iff.mp hid)]
  exact h.own id (h.upstream_iff.mp hid)

/-- The records upstream are the same. -/
theorem agrees :
    m.graph.Agrees (ReflTransGen m.graph.Binds root) (m.graph.Severed root) m'.graph := by
  refine ⟨fun id hid => ?_, h.same.cell?_eq, fun s ⟨hdead, id, hid, b, hb, hs⟩ => ⟨hdead, ?_⟩⟩
  · obtain ⟨hal, hal'⟩ := h.alive_of_upstream hid
    exact Graph.node?_congr hal hal' (h.same.logic_eq id hid) (h.same.inputs_eq id hid)
      (h.same.outputs_eq id hid) (h.same.calls_eq id hid)
      ((busy_of_idle h.run' h.idle' id).trans (busy_of_idle h.run h.idle id).symm)
  · -- The binding holds nothing in either graph, so the owner is dead in both.
    obtain ⟨hal, hal'⟩ := h.alive_of_upstream hid
    have hc : m.workspace.Carries b := .bound hal hb
    have hc' : m'.workspace.Carries b := .bound hal' (h.same.inputs_eq id hid ▸ hb)
    cases hf : b.feeder with
    | none => exact hs ▸ ((fits h.run' hc').dead hf).alive_eq
    | some k =>
      have hk := hc.alive_of_feeder (firm h.run) hf
      rw [← (fits h.run hc).feeder_eq k hf, hs] at hk
      exact absurd (hdead ▸ hk) Bool.false_ne_true

/-- Deaths change nothing of what the reads see. -/
theorem settle (hk : k.Twin (ReflTransGen m.graph.Binds root) (m.graph.Severed root) k')
    (hp : k.settle.Pulls m.workspace root fun _ _ => True)
    (hp' : k'.settle.Pulls m'.workspace root fun _ _ => True) :
    k.settle.Beside m.workspace m'.workspace root k'.settle := by
  refine ⟨hk.settle (fun id hid => ?_) fun id hid => ?_, hp, hp'⟩
  · exact (hp.grows.alive_eq id).trans (h.alive_of_upstream hid).1
  · exact (hp'.grows.alive_eq id).trans (h.alive_of_upstream hid).2

/-- While a compute is in progress two reads go on side by side. -/
theorem move (hb : n.Beside m.workspace m'.workspace root n') (hr : Run before n)
    (hr' : Run before' n') (hne : n.frames ≠ []) :
    n.move.Beside m.workspace m'.workspace root n'.move := by
  have hp := hb.pulls.move (h.run.unheld_eq_nil h.idle) h.own hr hne
  have hp' := hb.pulls'.move (h.run'.unheld_eq_nil h.idle') (fun _ => h.own') hr'
    (hb.twin.frames_eq ▸ hne)
  obtain ⟨f, rest, hf⟩ := List.exists_cons_of_ne_nil hne
  cases hc : n.control with
  | returned outcome =>
    have hm : n.move = (n.resume outcome).settle := by simp only [Machine.move, hc]
    have hm' : n'.move = (n'.resume outcome).settle := by
      simp only [Machine.move, hb.twin.control_eq, hc]
    rw [hm] at hp ⊢
    rw [hm'] at hp' ⊢
    exact h.settle (hb.twin.resume hne outcome) hp hp'
  | running =>
    have hm : n.move = n.advance.settle := by simp only [Machine.move, hc]
    have hm' : n'.move = n'.advance.settle := by simp only [Machine.move, hb.twin.control_eq, hc]
    have hown := hb.pulls.own f (hf ▸ List.mem_cons_self)
    rw [hm] at hp ⊢
    rw [hm'] at hp' ⊢
    refine h.settle (hb.twin.advance hf (fun name t hg => ?_) hown) hp hp'
    exact hb.pulls.upstream_or_severed hr (stack_of_cons hf ▸ List.mem_cons_self) hg

/-- And so they come to the end of their computes together. -/
theorem leads (hb : n.Beside m.workspace m'.workspace root n') (hr : Run before n)
    (hr' : Run before' n') (hl : Leads (fun k => 0 < k.frames.length) n k) :
    ∃ k', Leads (fun k => 0 < k.frames.length) n' k' ∧
      k.Beside m.workspace m'.workspace root k' := by
  induction hl generalizing before before' n' with
  | refl => exact ⟨n', .refl _, hb⟩
  | move hlt _ ih =>
    -- The second machine has as many computes in progress, so it has not come to the end either.
    have hne := List.ne_nil_of_length_pos hlt
    obtain ⟨k', hk, hbk⟩ := ih (h.move hb hr hr' hne) hr.move hr'.move
    exact ⟨k', .move (hb.twin.frames_eq ▸ hlt) hk, hbk⟩

section Load

variable {d d' : Demand} {into into' : Option String} {holding holding' : Option NodeId}
  (hs : s.owner = root) (hd : (m.load (.demand d into)).Demands s holding)
  (hd' : (m'.load (.demand d' into')).Demands s holding')

include hs hd hd'

/-- The first moves of two reads of one socket. -/
theorem load : (m.load (.demand d into)).move.Beside m.workspace m'.workspace root
    (m'.load (.demand d' into')).move := by
  have hp := pulls_of_load h.run h.idle hd (hs ▸ h.alive) (hs ▸ h.own)
  have hp' := pulls_of_load h.run' h.idle' hd' (hs ▸ h.alive') (hs ▸ fun _ => h.own')
  have hf : (m.load (.demand d into)).frames = [] := (idle_cases h.idle).2.1
  have hf' : (m'.load (.demand d' into')).frames = [] := (idle_cases h.idle').2.1
  have ht : (m.load (.demand d into)).Twin (ReflTransGen m.graph.Binds root) (m.graph.Severed root)
      (m'.load (.demand d' into')) :=
    ⟨h.agrees, hf'.trans hf.symm, hd'.1.trans hd.1.symm, rfl, fun f hm => by simp [hf] at hm, nofun⟩
  rw [hs, move_of_demands hd] at hp
  rw [hs, move_of_demands hd'] at hp'
  rw [move_of_demands hd, move_of_demands hd']
  exact h.settle ((ht.setTask (absurd hf)).demand (.inl (hs ▸ .refl))) hp hp'

/-- Both reads have the same outcome. -/
theorem exists_reads : ∃ outcome n n', (m.load (.demand d into)).Reads s outcome n ∧
    (m'.load (.demand d' into')).Reads s outcome n' ∧
      n.Beside m.workspace m'.workspace root n' := by
  have hf : (m.load (.demand d into)).frames = [] := (idle_cases h.idle).2.1
  have hf' : (m'.load (.demand d' into')).frames = [] := (idle_cases h.idle').2.1
  obtain ⟨outcome, n, hr⟩ := exists_reads_of_load h.run h.idle hd (hs ▸ h.alive) (hs ▸ h.own)
  have hl := hr.leads
  rw [hf] at hl
  obtain ⟨n', hl', hb⟩ := h.leads (h.load hs hd hd') (h.run.load _ h.idle).move
    (h.run'.load _ h.idle').move hl
  refine ⟨outcome, n, n', hr, ⟨⟨_, hd'⟩, by rw [hf']; exact hl', ?_, ?_⟩, hb⟩
  · rw [hb.twin.frames_eq, hr.length_eq, hf, hf']
  · rw [hb.twin.control_eq, hr.control_eq]

end Load

end Alike

/-- What was the same upstream is so still. -/
theorem Beside.sameUpstream {w₀ w₀' : Workspace} (h : n.Beside w₀ w₀' root n') :
    n.graph.SameUpstream n'.graph root := by
  have hbinds := h.pulls.grows.binds_eq
  have hn (id : NodeId) (hid : ReflTransGen n.graph.Binds root id) :
      n'.graph.node? id = n.graph.node? id := h.twin.agrees.node?_eq id (hbinds ▸ hid)
  refine .of_node? hn fun s ⟨hdead, id, hid, b, hb, hs⟩ => ?_
  exact h.twin.agrees.cell?_eq s ⟨(h.pulls.grows.alive_eq _).symm.trans hdead, id, hbinds ▸ hid, b,
    h.pulls.grows.inputs_eq id ▸ hb, hs⟩

/-- The computes that began during the last step of the program, in order, with their numbers. -/
def computes (m : Machine) : List (NodeId × Nat) :=
  m.trace.reverse.filterMap fun
    | .called id call => some (id, call)
    | _ => none

end Machine

open Machine

variable {past past' : List Machine} {m m' : Machine}

/-- What holds of all living nodes holds of those upstream of one of them. -/
theorem Run.forall_upstream (h : Run past m) (root : NodeId) (ha : m.graph.alive root = true)
    {P : NodeId → Prop} (hP : ∀ k < m.graph.nodes.size, m.graph.alive ⟨k⟩ = true → P ⟨k⟩) :
    ∀ id, ReflTransGen m.graph.Binds root id → P id := by
  intro id hr
  have hal := (firm h).alive_of_reaches hr ha
  exact hP id.ordinal (Graph.alive_lt _ hal) hal

/-- What is not upstream of a node has no influence on its reads: where two runs are the same
upstream, the reads yield the same and report the same, run the same computes, and leave the same
upstream behind. -/
theorem Run.insulated (h : Run past m) (h' : Run past' m') (hi : m.idle = true)
    (hi' : m'.idle = true) (d d' : Demand) (into into' : Option String) {s : Socket}
    {holding holding' : Option NodeId}
    (hd : d.target ⟨none, 0, .empty⟩ m.workspace = .ok (some s, holding))
    (hd' : d'.target ⟨none, 0, .empty⟩ m'.workspace = .ok (some s, holding'))
    (ha : m.graph.alive s.owner = true) (ha' : m'.graph.alive s.owner = true)
    (ho : ∀ id, ReflTransGen m.graph.Binds s.owner id → (m.graph.logic id).OwnInput fun _ => True)
    (hs : m.graph.SameUpstream m'.graph s.owner) :
    ∃ entry k k' limit,
      (∀ more, limit ≤ more → m.exec more (.demand d into) = some (entry, k) ∧
        m'.exec more (.demand d' into') = some (entry, k')) ∧
      k'.computes = k.computes ∧ k.graph.SameUpstream k'.graph s.owner ∧
        ∀ id, ReflTransGen k.graph.Binds s.owner id ↔ ReflTransGen m.graph.Binds s.owner id := by
  have halike : Alike past past' m m' s.owner := ⟨h, h', hi, hi', ha, ha', ho, hs⟩
  have hdem : (m.load (.demand d into)).Demands s holding := demands_of_load hi hd
  have hdem' : (m'.load (.demand d' into')).Demands s holding' := demands_of_load hi' hd'
  obtain ⟨outcome, n, n', hr, hr', hb⟩ := halike.exists_reads rfl hdem hdem'
  obtain ⟨-, -, entry, -, limit, hexec⟩ := exists_exec_of_reads hi hr
  obtain ⟨-, -, entry', -, limit', hexec'⟩ := exists_exec_of_reads hi' hr'
  have htrace := trace_move_of_reads hi hr
  have htrace' := trace_move_of_reads hi' hr'
  -- Nothing dies of the end of a read.
  have hg : n.move.graph = n.graph := by
    rw [graph, (move_of_reads hi hr).2, hb.pulls.grows.release_eq (h.unheld_eq_nil hi)]
    rfl
  have hg' : n'.move.graph = n'.graph := by
    rw [graph, (move_of_reads hi' hr').2, hb.pulls'.grows.release_eq (h'.unheld_eq_nil hi')]
    rfl
  have hentry : entry' = entry := by
    rw [entry_eq_of_exec (hexec limit (Nat.le_refl _)) htrace,
      entry_eq_of_exec (hexec' limit' (Nat.le_refl _)) htrace', hg, hg', hb.twin.trace_eq]
    refine congrArg (Entry.mk _) (List.filter_congr fun e he => ?_)
    refine Graph.reports_congr (hb.twin.about e (List.mem_reverse.mp he)) fun id hid => ?_
    simp only [Graph.logic, hb.twin.agrees.node?_eq id hid]
  refine ⟨entry, n.move, n'.move, max limit limit', fun more hmore => ?_, ?_, ?_, fun id => ?_⟩
  · exact ⟨hexec more (Nat.le_trans (Nat.le_max_left _ _) hmore),
      hentry ▸ hexec' more (Nat.le_trans (Nat.le_max_right _ _) hmore)⟩
  · simp only [computes, htrace, htrace', hb.twin.trace_eq, List.reverse_cons,
      List.filterMap_append]
    rfl
  · rw [hg, hg']
    exact hb.sameUpstream
  · rw [hg]
    exact hb.pulls.grows.binds_eq ▸ Iff.rfl

/-- A sum of a dead constant and a living one is read before and after another node is made and read
and a handle is dropped. -/
theorem Run.insulated_sum :
    ∃ past m past' m', Run past m ∧ Run past' m' ∧ m'.graph.nextId ≠ m.graph.nextId ∧
      ∃ (entry : Entry) (k k' : Machine) (limit : Nat),
        (∀ more, limit ≤ more →
          m.exec more (.demand (.output (.label "sum") "v") none) = some (entry, k) ∧
            m'.exec more (.demand (.output (.label "total") "v") none) = some (entry, k')) ∧
        entry.result = .ok (.value (.ofInt 12)) ∧
        k'.computes = k.computes ∧ k.graph.SameUpstream k'.graph ⟨2⟩ ∧
          ∀ id, ReflTransGen k.graph.Binds ⟨2⟩ id ↔ ReflTransGen m.graph.Binds ⟨2⟩ id := by
  have h₁ := Run.start.load (.edit (.create "five" .identifier (.value (.ofInt 5)))) rfl
  have h₂ := h₁.move.load (.edit (.keepOutput (.label "five") "v" "kept")) rfl
  have h₃ := h₂.move.load (.demand (.socket (.label "kept")) none) rfl
  have h₄ := h₃.move.move.move.move.load (.edit (.dropNode "five")) rfl
  have h₅ := h₄.move.load (.edit (.create "seven" .identifier (.value (.ofInt 7)))) rfl
  have h₆ := h₅.move.load (.edit (.create "sum" .identifier .add)) rfl
  have h₇ := h₆.move.load (.edit (.connect (.label "sum") "v1" (.label "kept"))) rfl
  have h := (h₇.move.load
    (.edit (.connect (.label "sum") "v2" (.output (.label "seven") "v"))) rfl).move
  have h₈ := h.load (.edit (.create "other" .identifier (.value (.ofInt 1)))) rfl
  have h₉ := h₈.move.load (.demand (.output (.label "other") "v") none) rfl
  have h₁₀ := h₉.move.move.move.move.load (.edit (.copyNode (.label "sum") "total")) rfl
  have h' := (h₁₀.move.load (.edit (.dropNode "seven")) rfl).move
  have hup := h.forall_upstream ⟨2⟩ rfl (P := fun id => id = ⟨1⟩ ∨ id = ⟨2⟩) fun k hk ha => by
    have hk : k < 3 := hk
    rcases k with _ | _ | _ | k
    · exact absurd (show false = true from ha) Bool.false_ne_true
    · exact .inl rfl
    · exact .inr rfl
    · omega
  have hread := h.insulated h' rfl rfl (.output (.label "sum") "v") (.output (.label "total") "v")
    none none (s := ⟨⟨2⟩, "v"⟩) rfl rfl rfl rfl ?own (.of_node? ?nodes ?severed)
  case own =>
    intro id hr
    obtain rfl | rfl := hup id hr
    · exact fun call i hi => (Logic.ownInput_of_not_script rfl call i hi).mono fun _ _ => trivial
    · exact fun call i hi => (Logic.ownInput_of_not_script rfl call i hi).mono fun _ _ => trivial
  case nodes =>
    intro id hr
    obtain rfl | rfl := hup id hr
    · exact Eq.trans (b := some ⟨.value (.ofInt 7), ⟨[]⟩, ⟨[("v", none)]⟩, false, 0, true⟩) rfl rfl
    · exact Eq.trans (b := some ⟨.add, ⟨[⟨"v1", some ⟨⟨⟨0⟩, "v"⟩, none⟩⟩,
        ⟨"v2", some ⟨⟨⟨1⟩, "v"⟩, some ⟨1⟩⟩⟩]⟩, ⟨[("v", none)]⟩, false, 0, true⟩) rfl rfl
  case severed =>
    rintro s ⟨hdead, id, hr, b, hb, rfl⟩
    obtain rfl | rfl := hup id hr
    · exact absurd hb List.not_mem_nil
    · rcases List.mem_cons.mp hb with rfl | hb
      · exact Eq.trans (b := some (.ofInt 5)) rfl rfl
      · obtain rfl := List.mem_singleton.mp hb
        exact absurd (show true = false from hdead) (Ne.symm Bool.false_ne_true)
  obtain ⟨entry, k, k', limit, hexec, hcomputes, hsame, hiff⟩ := hread
  exact ⟨_, _, _, _, h, h', by decide, entry, k, k', limit, hexec,
    result_eq_of_exec 60 (hexec limit (Nat.le_refl _)).1 rfl, hcomputes, hsame, hiff⟩

end PullGraph

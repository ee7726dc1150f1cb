import PullGraph.Proofs.Memo

/-!
# Reads in any order

Which computes a read sets to work depends on what has a value already, and where it gives up depends
on the nodes that are computing at the time. Which cells have a value in the end does not.

* `Graph.tries`: the sockets that steps come to read. `Graph.Fills` says which cells a read fills, by
  the wiring alone.
* `Workspace.Full`: whatever was computed since has left values wherever it had to read.
* `Covers`: a job fills the cells that its sockets lead to, and no other ones. `Evaluates.covers`.
* `Machine.exists_exec_fills`: so does a read that a program makes.
* `Run.unordered`: reads in any order fill the same cells, with the same values.
-/

namespace PullGraph

open Relation

/-! ## Ways that avoid a path -/

/-- A way that avoids a path leaves its first node for the last time at some point. -/
theorem exists_last_exit {α : Type} {r : α → α → Prop} {path : List α} {a b : α}
    (h : ReflTransGen (fun x y => r x y ∧ y ∉ path) a b) :
    b = a ∨ ∃ c, r a c ∧ c ∉ a :: path ∧
      ReflTransGen (fun x y => r x y ∧ y ∉ a :: path) c b := by
  -- From each node on the way, either the rest avoids `a` or the last exit is still to come.
  have hall (x : α) (hx : ReflTransGen (fun x y => r x y ∧ y ∉ path) x b) :
      (b = a ∨ ∃ c, r a c ∧ c ∉ a :: path ∧
        ReflTransGen (fun x y => r x y ∧ y ∉ a :: path) c b) ∨
      (x ≠ a ∧ ReflTransGen (fun x y => r x y ∧ y ∉ a :: path) x b) := by
    induction hx using ReflTransGen.head_induction_on with
    | refl =>
      by_cases e : b = a
      · exact .inl (.inl e)
      · exact .inr ⟨e, .refl⟩
    | @head x y hxy _ ih =>
      obtain ih | ⟨hy, hyb⟩ := ih
      · exact .inl ih
      · have hout : y ∉ a :: path := fun hm => (List.mem_cons.mp hm).elim hy hxy.2
        by_cases e : x = a
        · exact .inl (.inr ⟨y, e ▸ hxy.1, hout, hyb⟩)
        · exact .inr ⟨e, .head ⟨hxy.1, hout⟩ hyb⟩
  exact (hall a h).resolve_right fun hne => hne.1 rfl

/-! ## What a read fills -/

namespace Graph

variable (g : Graph)

/-- The sockets that the steps of a node come to read: up to the first one that has no value. -/
def tries (id : NodeId) : List Instr → List Socket
  | .act (.demand (.input .self input) _) _ :: rest =>
    match (g.inputs id).get input with
    | .ok (some t) =>
      match g.naive [] t with
      | .ok _ => t :: tries id rest
      | .error _ => [t]
    | _ => []
  | _ => []

/-- A read of the socket has to compute its owner. -/
structure Vacant (s : Socket) : Prop where
  unset : g.cell? s = none
  alive : g.alive s.owner = true

/-- A compute of the first node comes to read a socket that the second one has to compute. -/
def Tries (id other : NodeId) : Prop :=
  ∃ s ∈ g.tries id ((g.logic id).program 1), g.Vacant s ∧ s.owner = other

/-- A read of the first socket leaves a value in the second one. -/
structure Fills (s t : Socket) : Prop where
  vacant : g.Vacant s
  reaches : ReflTransGen g.Tries s.owner t.owner
  declares : g.Declares t
  worth : ∃ v, g.naive [] t = .ok v

variable {g} {id : NodeId} {s t : Socket} {input : String} {into : Option String} {attempt : Bool}
  {steps rest : List Instr}

theorem tries_read_of_ok {v : Value} (hg : (g.inputs id).get input = .ok (some t))
    (hv : g.naive [] t = .ok v) :
    g.tries id (.act (.demand (.input .self input) into) attempt :: rest) =
      t :: g.tries id rest := by
  rw [tries, hg]
  simp only [hv]

theorem tries_read_of_error {e : GraphError} (hg : (g.inputs id).get input = .ok (some t))
    (he : g.naive [] t = .error e) :
    g.tries id (.act (.demand (.input .self input) into) attempt :: rest) = [t] := by
  rw [tries, hg]
  simp only [he]

theorem tries_read_of_not_get (hg : ∀ t, (g.inputs id).get input ≠ .ok (some t)) :
    g.tries id (.act (.demand (.input .self input) into) attempt :: rest) = [] := by
  rw [tries]
  rcases h : (g.inputs id).get input with e | _ | t
  · rfl
  · rfl
  · exact absurd h (hg t)

theorem tries_subset_reads (id : NodeId) (steps : List Instr) :
    g.tries id steps ⊆ g.reads id steps := by
  fun_induction tries g id steps with
  | case1 input into attempt rest t hg v hv ih =>
    rw [reads, hg]
    exact List.cons_subset_cons _ ih
  | case2 input into attempt rest t hg e he =>
    rw [reads, hg]
    exact List.subset_append_left _ _
  | case3 | case4 => exact List.nil_subset _

theorem tries_eq_nil (h : g.reads id steps = []) : g.tries id steps = [] :=
  List.subset_nil.mp (h ▸ tries_subset_reads id steps)

theorem Tries.alive {other : NodeId} (h : g.Tries id other) : g.alive other = true := by
  obtain ⟨s, -, hv, rfl⟩ := h
  exact hv.alive

theorem alive_of_reaches {other : NodeId} (hr : ReflTransGen g.Tries id other)
    (ha : g.alive id = true) : g.alive other = true := by
  obtain rfl | ⟨_, -, h⟩ := hr.cases_tail
  · exact ha
  · exact h.alive

theorem declares_of_cell? (h : g.cell? s ≠ none) : g.Declares s := by
  rw [declares_iff, ← Outputs.isSome_find?_iff]
  unfold cell? at h
  unfold outputs
  cases hn : g.node? s.owner with
  | none => simp [hn] at h
  | some node =>
    cases hf : node.outputs.find? s.name with
    | none => simp [hn, hf] at h
    | some cell => simp [hf]

end Graph

/-! ## What has been computed since -/

/-- Whatever was computed since the first workspace has left a value wherever it had to read. -/
def Workspace.Full (w₀ w : Workspace) : Prop :=
  ∀ s, w₀.graph.cell? s = none → w.graph.cell? s ≠ none →
    ∀ t ∈ w₀.graph.reads s.owner ((w₀.graph.logic s.owner).program 1), w.graph.cell? t ≠ none

/-- A part of a job that comes to read these sockets fills the cells that they lead to by ways that
avoid the path, and no other ones except those of the nodes that are done with it. -/
structure Covers (w₀ : Workspace) (ended path : List NodeId) (sockets : List Socket)
    (w w' : Workspace) : Prop where
  full : w₀.Full w'
  source : ∀ t : Socket, t.owner ∉ ended → w.graph.cell? t = none → w'.graph.cell? t ≠ none →
    ∃ s ∈ sockets, w₀.graph.Vacant s ∧ ReflTransGen w₀.graph.Tries s.owner t.owner
  target : ∀ s ∈ sockets, w₀.graph.Vacant s → s.owner ∉ path → ∀ t, w₀.graph.Declares t →
    (∃ v, w₀.graph.naive [] t = .ok v) →
    ReflTransGen (fun id other => w₀.graph.Tries id other ∧ other ∉ path) s.owner t.owner →
    w'.graph.cell? t ≠ none

variable {w₀ w w₁ w' : Workspace} {s t : Socket} {ended path : List NodeId} {sockets : List Socket}
  {log : List NodeId} {outcome : Except GraphError Value}

namespace Workspace.Full

theorem refl (w : Workspace) : w.Full w := fun _ hc hs => absurd hc hs

theorem congr (h : w₀.Full w) (hc : ∀ t, w'.graph.cell? t = w.graph.cell? t) : w₀.Full w' :=
  fun s hs hs' t ht => hc t ▸ h s hs (hc s ▸ hs') t ht

/-- Where a value was computed, one was computed of every node that this comes to read. -/
theorem exists_of_reaches (h : w₀.Full w) (hc : w₀.graph.cell? s = none)
    (hs : w.graph.cell? s ≠ none) {id : NodeId} (hr : ReflTransGen w₀.graph.Tries s.owner id) :
    ∃ t, t.owner = id ∧ w₀.graph.cell? t = none ∧ w.graph.cell? t ≠ none := by
  induction hr with
  | refl => exact ⟨s, rfl, hc, hs⟩
  | tail _ htry ih =>
    obtain ⟨t, rfl, htc, ht⟩ := ih
    obtain ⟨u, hu, hv, rfl⟩ := htry
    exact ⟨u, rfl, hv.unset, h t htc ht u (Graph.tries_subset_reads _ _ hu)⟩

end Workspace.Full

namespace Covers

/-- Nothing is read, and cells of no other nodes are filled. -/
theorem nil (hf : w₀.Full w')
    (hc : ∀ t : Socket, t.owner ∉ ended → w'.graph.cell? t = w.graph.cell? t) :
    Covers w₀ ended path [] w w' where
  full := hf
  source t ho hn hs := absurd ((hc t ho).trans hn) hs
  target := nofun

/-- A socket is read, and then further ones. -/
theorem cons (h : Covers w₀ [] path [s] w w₁) (h' : Covers w₀ ended path sockets w₁ w')
    (hg : w₁.Grows w') : Covers w₀ ended path (s :: sockets) w w' where
  full := h'.full
  source t ho hn hs := by
    by_cases hc : w₁.graph.cell? t = none
    · obtain ⟨u, hu, hv, hr⟩ := h'.source t ho hc hs
      exact ⟨u, List.mem_cons_of_mem _ hu, hv, hr⟩
    · obtain ⟨u, hu, hv, hr⟩ := h.source t List.not_mem_nil hn hc
      exact ⟨u, List.mem_cons.mpr (.inl (List.mem_singleton.mp hu)), hv, hr⟩
  target u hu hv hp t hd hw hr := by
    obtain rfl | hu := List.mem_cons.mp hu
    · exact fun hn => h.target u List.mem_cons_self hv hp t hd hw hr (hg.unset t hn)
    · exact h'.target u hu hv hp t hd hw hr

/-- The compute ends after a read. -/
theorem leave (h : Covers w₀ [] path sockets w w₁) (id : NodeId) :
    Covers w₀ ended path sockets w (w₁.setGraph (w₁.graph.leave id)) where
  full := h.full.congr fun _ => Graph.cell?_leave _ _ _
  source t _ hn hs := h.source t List.not_mem_nil hn fun e => hs ((Graph.cell?_leave _ _ _).trans e)
  target s hm hv hp t hd hw hr :=
    fun e => h.target s hm hv hp t hd hw hr ((Graph.cell?_leave _ _ _).symm.trans e)

/-- The compute ends with its write, after all its reads. -/
theorem of_fill {call : Nat} {registers : Table Value} {v : Value} (hd : w.graph.Declares s)
    (hf : w₀.Full w)
    (hread : ∀ t ∈ w₀.graph.reads s.owner ((w₀.graph.logic s.owner).program 1),
      w.graph.cell? t ≠ none)
    (he : Evaluates (w.setGraph (w.graph.fill s v)) (.steps s call registers []) log outcome w') :
    Covers w₀ [s.owner] path [] w w' := by
  have hg : w.Grows w' := ((Workspace.Grows.refl w).fill hd v).trans he.advances.grows
  cases he with
  | finish =>
    have hcell (t : Socket) : ((w.graph.fill s v).leave s.owner).cell? t =
        if t = s then some v else w.graph.cell? t :=
      (Graph.cell?_leave _ _ _).trans (Graph.cell?_fill _ v hd t)
    refine .nil (fun t hn ht u hu e => ?_) fun t ht => (hcell t).trans (if_neg ?_)
    · by_cases ets : t = s
      · subst ets
        exact hread u hu (hg.unset u e)
      · exact hf t hn ((hcell t).trans (if_neg ets) ▸ ht) u hu (hg.unset u e)
    · rintro rfl
      exact ht List.mem_cons_self

section Strict

variable (hw : w₀.Wired) (hs : ∀ id, w₀.graph.alive id = true → (w₀.graph.logic id).Strict)

include hw hs

/-- A strict node declares one socket. -/
theorem eq_of_declares (ha : w₀.graph.alive s.owner = true) (hds : w₀.graph.Declares s)
    (hdt : w₀.graph.Declares t) (e : t.owner = s.owner) : t = s := by
  obtain ⟨output, ho, -⟩ := (hs s.owner ha).exists_straight
  rw [Graph.declares_iff, hw.names_eq] at hds hdt
  rw [ho, List.mem_singleton] at hds
  rw [e, ho, List.mem_singleton] at hdt
  obtain ⟨id, name⟩ := s
  obtain ⟨id', name'⟩ := t
  obtain rfl : id' = id := e
  obtain rfl : name = output := hds
  obtain rfl : name' = name := hdt
  rfl

/-- A read that needs no compute has nothing to fill: what the socket leads to is there already. -/
theorem of_answer (h : Asks w₀ path w s) (hf : w₀.Full w)
    (ha : w.graph.answer? s = some outcome) : Covers w₀ [] path [s] w w where
  full := hf
  source t _ hn hs := absurd hn hs
  target u hu hv hp t hd _ hr := by
    obtain rfl := List.mem_singleton.mp hu
    have hcell : w.graph.cell? u ≠ none := by
      intro hc
      have hbusy : w.graph.busy u.owner = false :=
        Bool.eq_false_iff.mpr (mt (h.busy_iff u.owner).mp hp)
      have hnone : w.graph.answer? u = none := Graph.answer?_eq_none_iff.mpr
        ⟨hc, (h.caches.alive_eq _).trans hv.alive, by rw [Graph.computing_eq, hbusy, Bool.and_false]⟩
      rw [hnone] at ha
      cases ha
    have hreach := ReflTransGen.mono (fun _ _ h => h.1) _ _ hr
    -- The socket was set since, and so was one of each node that this led to.
    obtain ⟨t', e, -, ht'⟩ := hf.exists_of_reaches hv.unset hcell hreach
    have hd' := h.caches.declares_iff.mp (Graph.declares_of_cell? ht')
    have halive := Graph.alive_of_reaches hreach hv.alive
    rwa [← eq_of_declares hw hs halive hd hd' e]

/-- The compute that a read starts fills what its sockets lead to, and at last the socket itself. -/
theorem of_compute (h : Covers w₀ [s.owner] (s.owner :: path)
      (w₀.graph.tries s.owner ((w₀.graph.logic s.owner).program 1))
      (w.setGraph (w.graph.enter s.owner)) w')
    (hv : w₀.graph.Vacant s) (hd : w₀.graph.Declares s)
    (hc : (∃ v, w₀.graph.naive [] s = .ok v) → w'.graph.cell? s ≠ none) :
    Covers w₀ [] path [s] w w' where
  full := h.full
  source t _ hn hs := by
    refine ⟨s, List.mem_cons_self, hv, ?_⟩
    by_cases e : t.owner = s.owner
    · rw [e]
    · obtain ⟨u, hu, huv, hr⟩ := h.source t (mt List.mem_singleton.mp e)
        ((Graph.cell?_enter _ _ _).trans hn) hs
      exact hr.head ⟨u, hu, huv, rfl⟩
  target u hu _ _ t hdt hwt hr := by
    obtain rfl := List.mem_singleton.mp hu
    obtain e | ⟨_, ⟨u', hu', hv', rfl⟩, hp, hr⟩ := exists_last_exit hr
    · obtain rfl := eq_of_declares hw hs hv.alive hd hdt e
      exact hc hwt
    · exact h.target u' hu' hv' hp t hdt hwt hr

end Strict

end Covers

/-! ## Reads -/

/-- The job fills what its sockets lead to. -/
def Spreads (w₀ w : Workspace) (job : Job) (w' : Workspace) : Prop :=
  match job with
  | .read s => ∀ path, Asks w₀ path w s → w₀.Full w → Covers w₀ [] path [s] w w'
  | .steps s _ registers todo => ∀ path, Follows w₀ path w s registers todo → w₀.Full w →
    (∀ t ∈ w₀.graph.reads s.owner ((w₀.graph.logic s.owner).program 1),
      t ∈ w₀.graph.reads s.owner todo ∨ w.graph.cell? t ≠ none) →
    Covers w₀ [s.owner] (s.owner :: path) (w₀.graph.tries s.owner todo) w w'

open PullGraph.Graph in
/-- A read fails under a path only if it fails without one. -/
theorem Asks.exists_naive_eq_error (h : Asks w₀ path w s) {e : GraphError}
    (he : w₀.graph.naive path s = .error e) : ∃ e', w₀.graph.naive [] s = .error e' := by
  cases hn : w₀.graph.naive [] s with
  | error e' => exact ⟨e', rfl⟩
  | ok v =>
    cases hc : w₀.graph.cell? s with
    | some u => rw [naive_of_cell hc] at he; cases he
    | none => rw [naive_of_needed hn (h.needed hc)] at he; cases he

open PullGraph.Graph in
/-- A read of strict nodes fills what its socket leads to. -/
theorem Evaluates.spreads {job : Job} (h : Evaluates w job log outcome w') (hw : w₀.Wired)
    (hs : ∀ id, w₀.graph.alive id = true → (w₀.graph.logic id).Strict) :
    Spreads w₀ w job w' := by
  induction h with
  | answer ha => exact fun path hf hfull => .of_answer hw hs hf hfull ha
  | @compute w w' s log outcome ha he ih =>
    intro path hf hfull
    obtain ⟨hcell, hal, hp⟩ := hf.of_no_answer ha
    obtain ⟨hnaive, hfollows⟩ := hf.follows ha hw hs (w.graph.calls s.owner + 1)
    obtain ⟨-, -, -, hprogram⟩ := (hs s.owner hal).exists_straight
    have htodo : (w.graph.logic s.owner).program (w.graph.calls s.owner + 1) =
        (w₀.graph.logic s.owner).program 1 := by rw [hf.caches.logic_eq, hprogram]
    have hcover := ih path hfollows (hfull.congr fun t => cell?_enter _ _ _)
      fun t ht => .inl (htodo ▸ ht)
    rw [htodo] at hcover
    -- A socket that is worth something is so under the path too, and then the compute leaves it set.
    refine hcover.of_compute hw hs ⟨hcell, hal⟩ hf.declares fun ⟨v, hv⟩ => ?_
    obtain ⟨rfl, -⟩ := (Evaluates.compute ha he).agrees hw hs path hf
    rw [naive_of_needed hv (hf.needed hcell)] at he
    have hc : w'.graph.cell? s = some v := he.cell?_eq
    exact hc ▸ Option.some_ne_none v
  | finish | branch | skip | swallow =>
    intro path hf
    cases hf.straight
  | done hb he _ =>
    intro path hf hfull hread
    obtain ⟨v, rfl, rfl, hreads, -⟩ := hf.exists_fill hb
    rw [hreads] at hread
    rw [tries_eq_nil hreads]
    exact .of_fill (hf.caches.declares_iff.mpr hf.declares) hfull
      (fun t ht => (hread t ht).resolve_left List.not_mem_nil) he
  -- A read that is refused has no socket to try, and a write tries none.
  | @stop w s call registers action e todo hb =>
    intro path hf hfull hread
    have htries : w₀.graph.tries s.owner (.act action false :: todo) = [] := by
      cases hf.straight with
      | read =>
        refine tries_read_of_not_get fun t hg => ?_
        have hbegin := hb.begin_eq
        rw [Action.begin_input, hf.caches.inputs_eq, hg] at hbegin
        cases hbegin
      | write | sum => rfl
    rw [htries]
    exact .nil (hfull.congr fun t => cell?_leave _ _ _) fun t _ => cell?_leave _ _ _
  | value hb he he' ih ih' =>
    intro path hf hfull hread
    cases hf.straight with
    | read =>
      have hg := hf.caches.get_of_begin hb.begin_eq
      have hasks := hf.asks hw hg
      obtain ⟨hv, hc⟩ := he.agrees hw hs _ hasks
      have hcover := ih _ hasks hfull
      rw [tries_read_of_ok hg (naive_of_subset hv.symm (List.nil_subset _))]
      refine hcover.cons (ih' path (hf.rest hg hv.symm hc he.advances.busy_iff_of_read) hcover.full
        fun t ht => ?_) he'.advances.grows
      obtain ht | ht := hread t ht
      · rw [reads_read hg] at ht
        obtain rfl | ht := List.mem_cons.mp ht
        · exact .inr (he.cell?_eq ▸ Option.some_ne_none _)
        · exact .inl ht
      · exact .inr fun e => ht (he.advances.grows.unset t e)
  | fail hb he ih =>
    intro path hf hfull hread
    cases hf.straight with
    | read =>
      have hg := hf.caches.get_of_begin hb.begin_eq
      have hasks := hf.asks hw hg
      obtain ⟨hv, -⟩ := he.agrees hw hs _ hasks
      obtain ⟨e', he'⟩ := hasks.exists_naive_eq_error hv.symm
      rw [tries_read_of_error hg he']
      exact (ih _ hasks hfull).leave _

/-- A read at the top level of a workspace fills the socket. -/
def Demand.Fills (d : Demand) (w : Workspace) (t : Socket) : Prop :=
  ∃ s holding, d.target ⟨none, 0, .empty⟩ w = .ok (some s, holding) ∧ w.graph.Fills s t

namespace Machine

variable {past : List Machine} {m : Machine}

section Strict

variable (hw : w₀.Wired) (hs : ∀ id, w₀.graph.alive id = true → (w₀.graph.logic id).Strict)

include hw hs

/-- What a read that a program makes fills is a matter of the wiring, not of earlier reads. -/
theorem exists_exec_fills (hr : Run past m) (hi : m.idle = true) (hc : w₀.Caches m.workspace)
    (hf : w₀.Full m.workspace) (d : Demand) (into : Option String) :
    ∃ (entry : Entry) (k : Machine), (∃ past, Run past k) ∧ k.idle = true ∧
      w₀.Caches k.workspace ∧ w₀.Full k.workspace ∧
      (∀ t, k.graph.cell? t ≠ none ↔ m.graph.cell? t ≠ none ∨ d.Fills w₀ t) ∧
        ∃ limit, ∀ more, limit ≤ more → m.exec more (.demand d into) = some (entry, k) := by
  obtain ⟨entry, k, hrun, hidle, hexec, ⟨s, holding, log, outcome, ht, hd, he, -⟩ |
    ⟨hn, hwork, -⟩⟩ := exists_exec_of_closed hr hi (closed_of_strict hs hc) d into
  · have hasks := asks_of_idle hr hi hc hd
    obtain ⟨-, hc'⟩ := he.agrees hw hs [] hasks
    have hcover := he.spreads hw hs [] hasks hf
    rw [hc.target_eq] at ht
    refine ⟨entry, k, hrun, hidle, hc', hcover.full, fun t => ⟨fun hk => ?_, ?_⟩, hexec⟩
    · by_cases hm : m.graph.cell? t = none
      · obtain ⟨u, hu, hv, hreach⟩ := hcover.source t List.not_mem_nil hm hk
        obtain rfl := List.mem_singleton.mp hu
        obtain ⟨v, hkv⟩ := Option.ne_none_iff_exists'.mp hk
        exact .inr ⟨u, holding, ht, hv, hreach,
          hc'.declares_iff.mp (Graph.declares_of_cell? hk), v, hc'.naive_eq t v hkv⟩
      · exact .inl hm
    · rintro (hm | ⟨u, holding', ht', hv, hreach, hdt, hworth⟩)
      · exact fun hk => hm (he.advances.grows.unset t hk)
      · cases ht.symm.trans ht'
        exact hcover.target s List.mem_cons_self hv List.not_mem_nil t hdt hworth
          (ReflTransGen.mono (fun _ _ h => ⟨h, List.not_mem_nil⟩) _ _ hreach)
  · refine ⟨entry, k, hrun, hidle, hwork ▸ hc, hwork ▸ hf, fun t => ?_, hexec⟩
    have hk : k.graph.cell? t = m.graph.cell? t := congrArg (·.graph.cell? t) hwork
    rw [hk, or_iff_left]
    rintro ⟨s, holding, ht, -⟩
    exact hn s holding ((hc.target_eq d _).trans ht)

/-- So it is with any number of reads in a row. -/
theorem exists_execAll_fills (hr : Run past m) (hi : m.idle = true) (hc : w₀.Caches m.workspace)
    (hf : w₀.Full m.workspace) (reads : List (Demand × Option String)) :
    ∃ (entries : List Entry) (k : Machine), w₀.Caches k.workspace ∧
      (∀ t, k.graph.cell? t ≠ none ↔
        m.graph.cell? t ≠ none ∨ ∃ read ∈ reads, read.1.Fills w₀ t) ∧
      ∃ limit, ∀ more, limit ≤ more →
        m.execAll more (reads.map fun read => .demand read.1 read.2) = some (entries, k) := by
  induction reads generalizing past m with
  | nil => exact ⟨[], m, hc, fun t => by simp, 0, fun _ _ => rfl⟩
  | cons read reads ih =>
    obtain ⟨entry, n, ⟨past', hr'⟩, hi', hc', hf', hn, hexec⟩ :=
      exists_exec_fills hw hs hr hi hc hf read.1 read.2
    obtain ⟨entries, k, hck, hk, hexec'⟩ := ih hr' hi' hc' hf'
    refine ⟨entry :: entries, k, hck, fun t => ?_, exists_execAll_cons hexec hexec'⟩
    rw [hk, hn, or_assoc]
    simp only [List.mem_cons, exists_eq_or_imp]

end Strict

end Machine

open Machine

variable {past : List Machine} {m : Machine}

/-- While all living nodes are strict, the same reads in two orders leave the same values in the same
cells. -/
theorem Run.unordered (h : Run past m) (hi : m.idle = true)
    (hs : ∀ id, m.graph.alive id = true → (m.graph.logic id).Strict)
    (reads reads' : List (Demand × Option String)) (hp : reads.Perm reads') :
    ∃ (entries entries' : List Entry) (k k' : Machine),
      (∃ limit, ∀ more, limit ≤ more →
        m.execAll more (reads.map fun read => .demand read.1 read.2) = some (entries, k)) ∧
      (∃ limit, ∀ more, limit ≤ more →
        m.execAll more (reads'.map fun read => .demand read.1 read.2) = some (entries', k')) ∧
      ∀ t, k.graph.cell? t = k'.graph.cell? t := by
  obtain ⟨entries, k, hc, hk, hexec⟩ :=
    exists_execAll_fills (wired h) hs h hi (.refl _) (.refl _) reads
  obtain ⟨entries', k', hc', hk', hexec'⟩ :=
    exists_execAll_fills (wired h) hs h hi (.refl _) (.refl _) reads'
  refine ⟨entries, entries', k, k', hexec, hexec', fun t => ?_⟩
  have hsame : k.graph.cell? t ≠ none ↔ k'.graph.cell? t ≠ none := by
    rw [hk, hk']
    simp only [hp.mem_iff]
  cases hv : k.graph.cell? t with
  | none =>
    rw [hv] at hsame
    exact (not_ne_iff.mp (hsame.not.mp (fun hne => hne rfl))).symm
  | some v =>
    obtain ⟨u, hu⟩ := Option.ne_none_iff_exists'.mp (hsame.mp (hv ▸ Option.some_ne_none v))
    have hworth := (hc.naive_eq t v hv).symm.trans (hc'.naive_eq t u hu)
    rw [hu, Except.ok.inj hworth]

/-- A sum that fails with its second input, since that is its own output, after it has read a
constant; and a sum that reads that one first. Both reads fail in either order, and either way the
constant is what they leave behind. -/
theorem Run.unordered_loop :
    ∃ past m, Run past m ∧ m.idle = true ∧
      (∀ id, m.graph.alive id = true → (m.graph.logic id).Strict) ∧
      (m.graph.inputs ⟨1⟩).values = [some ⟨⟨0⟩, "v"⟩, some ⟨⟨1⟩, "v"⟩] ∧
      (m.graph.inputs ⟨2⟩).values = [some ⟨⟨1⟩, "v"⟩, some ⟨⟨0⟩, "v"⟩] ∧
      m.graph.cell? ⟨⟨0⟩, "v"⟩ = none ∧
      ∃ (entries entries' : List Entry) (k k' : Machine),
        (∃ limit, ∀ more, limit ≤ more → m.execAll more
          [.demand (.output (.label "loop") "v") none, .demand (.output (.label "sum") "v") none] =
            some (entries, k)) ∧
        (∃ limit, ∀ more, limit ≤ more → m.execAll more
          [.demand (.output (.label "sum") "v") none, .demand (.output (.label "loop") "v") none] =
            some (entries', k')) ∧
        entries.map (·.result) = [.error (.graph (.cycleDetected ⟨⟨1⟩, "v"⟩)),
          .error (.graph (.cycleDetected ⟨⟨1⟩, "v"⟩))] ∧
        k.graph.cell? ⟨⟨0⟩, "v"⟩ = some (.ofInt 5) ∧ k.graph.cell? ⟨⟨1⟩, "v"⟩ = none ∧
        ∀ t, k.graph.cell? t = k'.graph.cell? t := by
  have he : Machine.start.execAll 100
      [.edit (.create "five" .identifier (.value (.ofInt 5))),
        .edit (.create "loop" .identifier .add),
        .edit (.create "sum" .identifier .add),
        .edit (.connect (.label "loop") "v1" (.output (.label "five") "v")),
        .edit (.connect (.label "loop") "v2" (.output (.label "loop") "v")),
        .edit (.connect (.label "sum") "v1" (.output (.label "loop") "v")),
        .edit (.connect (.label "sum") "v2" (.output (.label "five") "v"))] = some (_, _) := rfl
  obtain ⟨⟨past, h⟩, hi⟩ := Run.start.of_execAll rfl he
  have hs := h.forall_alive (P := Logic.Strict) fun k hk => by
    have hk : k < 3 := hk
    rcases k with _ | _ | _ | k
    · exact .value _
    · exact .add
    · exact .add
    · omega
  obtain ⟨entries, entries', k, k', ⟨limit, hexec⟩, hexec', hcells⟩ := h.unordered hi hs
    [(.output (.label "loop") "v", none), (.output (.label "sum") "v", none)]
    [(.output (.label "sum") "v", none), (.output (.label "loop") "v", none)] (.swap _ _ _)
  cases execAll_unique 100 (hexec limit (Nat.le_refl _)) rfl
  exact ⟨past, _, h, hi, hs, rfl, rfl, rfl, _, entries', _, k', ⟨limit, hexec⟩, hexec', rfl, rfl, rfl,
    hcells⟩

end PullGraph

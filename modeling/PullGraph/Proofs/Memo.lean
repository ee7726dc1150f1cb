import PullGraph.Proofs.Cache

/-!
# The cache changes no result

* `Machine.exists_exec`: a read that a program makes has the result that it has without a cache.
* `Run.memoised`: so has each of any number of reads in a row.
-/

namespace PullGraph

/-! ## Targets -/

theorem Graph.output_congr {g g' : Graph} {id : NodeId} {name : String}
    (h : (g'.outputs id).names = (g.outputs id).names) : g'.output id name = g.output id name := by
  have hs : ((g'.outputs id).find? name).isSome = ((g.outputs id).find? name).isSome := by
    rw [Bool.eq_iff_iff, Outputs.isSome_find?_iff, Outputs.isSome_find?_iff, h]
  simp only [output, hs]

variable {w₀ w : Workspace}

/-- What has been computed since does not matter to what a read is about. -/
theorem Workspace.Caches.target_eq (h : w₀.Caches w) (d : Demand) (scope : Scope) :
    d.target scope w = d.target scope w₀ := by
  have hnode (n : NodeRef) : scope.node w n = scope.node w₀ n := by
    cases n <;> simp only [Scope.node, h.handles_eq]
  cases d with
  | output n name => simp only [Demand.target, hnode, Graph.output_congr (h.names_eq _)]
  | input n name => simp only [Demand.target, hnode, h.inputs_eq]
  | optionalInput n name => simp only [Demand.target, hnode, h.inputs_eq]
  | socket r =>
    cases r with
    | label name => simp only [Demand.target, Scope.socket, h.handles_eq]
    | output n name =>
      simp only [Demand.target, Scope.socket, hnode, Graph.output_congr (h.names_eq _)]

/-- So is the result of one that is about no socket. -/
theorem Workspace.Caches.naiveRead_eq (h : w₀.Caches w) {d : Demand}
    (hn : ∀ s holding, d.target ⟨none, 0, .empty⟩ w ≠ .ok (some s, holding)) :
    w.naiveRead d = w₀.naiveRead d := by
  have htarget := h.target_eq d ⟨none, 0, .empty⟩
  rcases ht : d.target ⟨none, 0, .empty⟩ w with e | ⟨_ | s, held⟩
  · rw [naiveRead_of_error ht, naiveRead_of_error (htarget ▸ ht)]
  · rw [naiveRead_of_none ht, naiveRead_of_none (htarget ▸ ht)]
  · exact absurd ht (hn s held)

/-! ## Reads at the top level -/

namespace Machine

variable {past : List Machine} {m : Machine}

/-- A read at the top level asks while no compute is in progress. -/
theorem asks_of_idle (hr : Run past m) (hi : m.idle = true) (hc : w₀.Caches m.workspace) {s : Socket}
    (hd : m.graph.Declares s) : Asks w₀ [] m.workspace s where
  caches := hc
  busy_iff id := by rw [← stack_of_idle hi]; exact (mirrored hr).busy id
  declares := hc.declares_iff.mp hd
  needed _ _ := nofun

section Strict

variable (hw : w₀.Wired) (hs : ∀ id, w₀.graph.alive id = true → (w₀.graph.logic id).Strict)

include hs

/-- What is strict is closed under dependencies. -/
theorem closed_of_strict (hc : w₀.Caches w) : w.Closed fun id => w.graph.alive id = true where
  own id ha := hc.logic_eq id ▸ (hs id (hc.alive_eq id ▸ ha)).ownInput
  bound _ _ _ _ _ _ ha := ha

include hw

/-- A read that a program makes has the result that it has without a cache. -/
theorem exists_exec (hr : Run past m) (hi : m.idle = true) (hc : w₀.Caches m.workspace) (d : Demand)
    (into : Option String) :
    ∃ (entry : Entry) (k : Machine), entry.result = w₀.naiveRead d ∧ (∃ past, Run past k) ∧
      k.idle = true ∧ w₀.Caches k.workspace ∧
        ∃ limit, ∀ more, limit ≤ more → m.exec more (.demand d into) = some (entry, k) := by
  obtain ⟨entry, k, hrun, hidle, hexec, ⟨s, holding, log, outcome, ht, hd, he, hentry⟩ |
    ⟨hn, hwork, hentry⟩⟩ := exists_exec_of_closed hr hi (closed_of_strict hs hc) d into
  · obtain ⟨rfl, hc'⟩ := he.agrees hw hs [] (asks_of_idle hr hi hc hd)
    refine ⟨entry, k, ?_, hrun, hidle, hc', hexec⟩
    rw [hentry, Workspace.naiveRead_of_some ((hc.target_eq d _).symm.trans ht)]
  · exact ⟨entry, k, hentry.trans (hc.naiveRead_eq hn), hrun, hidle, hwork ▸ hc, hexec⟩

/-- So has each of any number of reads in a row. -/
theorem exists_execAll (hr : Run past m) (hi : m.idle = true) (hc : w₀.Caches m.workspace)
    (reads : List (Demand × Option String)) :
    ∃ (entries : List Entry) (k : Machine),
      entries.map (·.result) = reads.map (fun read => w₀.naiveRead read.1) ∧
        ∃ limit, ∀ more, limit ≤ more →
          m.execAll more (reads.map fun read => .demand read.1 read.2) = some (entries, k) := by
  -- The cache is always judged against the first workspace, from which all results are taken.
  induction reads generalizing past m with
  | nil => exact ⟨[], m, rfl, 0, fun _ _ => rfl⟩
  | cons read reads ih =>
    obtain ⟨entry, n, he, ⟨past', hr'⟩, hi', hc', hexec⟩ :=
      exists_exec hw hs hr hi hc read.1 read.2
    obtain ⟨entries, k, hes, hexec'⟩ := ih hr' hi' hc'
    exact ⟨entry :: entries, k, by rw [List.map_cons, List.map_cons, he, hes],
      exists_execAll_cons hexec hexec'⟩

end Strict

end Machine

/-! ## Runs -/

open Machine

variable {past : List Machine} {m : Machine}

/-- While all living nodes are strict, reads in a row have the results that an evaluation without a
cache gives them before the first. -/
theorem Run.memoised (h : Run past m) (hi : m.idle = true)
    (hs : ∀ id, m.graph.alive id = true → (m.graph.logic id).Strict)
    (reads : List (Demand × Option String)) :
    ∃ (entries : List Entry) (k : Machine),
      entries.map (·.result) = reads.map (fun read => m.workspace.naiveRead read.1) ∧
        ∃ limit, ∀ more, limit ≤ more →
          m.execAll more (reads.map fun read => .demand read.1 read.2) = some (entries, k) :=
  exists_execAll (wired h) hs h hi (.refl _) reads

/-- A sum that reads one constant twice, beside a node that reads itself. -/
theorem Run.memoised_sum :
    ∃ past m, Run past m ∧ m.idle = true ∧
      (∀ id, m.graph.alive id = true → (m.graph.logic id).Strict) ∧
      (m.graph.inputs ⟨1⟩).values = [some ⟨⟨0⟩, "v"⟩, some ⟨⟨0⟩, "v"⟩] ∧
      (m.graph.inputs ⟨2⟩).values = [some ⟨⟨2⟩, "v"⟩, none] ∧
      m.workspace.naiveRead (.output (.label "loop") "v") =
        .error (.graph (.cycleDetected ⟨⟨2⟩, "v"⟩)) ∧
      m.workspace.naiveRead (.output (.label "sum") "v") = .ok (.value (.ofInt 10)) ∧
      ∃ (entries : List Entry) (k : Machine),
        entries.map (·.result) = [.error (.graph (.cycleDetected ⟨⟨2⟩, "v"⟩)),
          .ok (.value (.ofInt 10))] ∧
        ∃ limit, ∀ more, limit ≤ more → m.execAll more
          [.demand (.output (.label "loop") "v") none, .demand (.output (.label "sum") "v") none] =
            some (entries, k) := by
  have he : Machine.start.execAll 100
      [.edit (.create "five" .identifier (.value (.ofInt 5))),
        .edit (.create "sum" .identifier .add),
        .edit (.create "loop" .identifier .add),
        .edit (.connect (.label "sum") "v1" (.output (.label "five") "v")),
        .edit (.connect (.label "sum") "v2" (.output (.label "five") "v")),
        .edit (.connect (.label "loop") "v1" (.output (.label "loop") "v"))] = some (_, _) := rfl
  obtain ⟨⟨past, h⟩, hi⟩ := Run.start.of_execAll rfl he
  have hs := h.forall_alive (P := Logic.Strict) fun k hk => by
    have hk : k < 3 := hk
    rcases k with _ | _ | _ | k
    · exact .value _
    · exact .add
    · exact .add
    · omega
  obtain ⟨entries, k, hresults, limit, hexec⟩ := h.memoised hi hs
    [(.output (.label "loop") "v", none), (.output (.label "sum") "v", none)]
  -- The machine computes its own results, and by the theorem these are the results without a cache.
  cases execAll_unique 100 (hexec limit (Nat.le_refl _)) rfl
  obtain ⟨hloop, hrest⟩ := List.cons.inj hresults
  exact ⟨past, _, h, hi, hs, rfl, rfl, hloop.symm, (List.cons.inj hrest).1.symm, _, _, rfl, limit,
    hexec⟩

end PullGraph

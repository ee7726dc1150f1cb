import PullGraph.Proofs.Memo

/-!
# Which sockets have a value

A read finds a cycle by the nodes that are computing at the time, and which ones these are depends on
how far it has come and on what has a value already. What it finds is nevertheless a matter of the
wiring alone.

* `Graph.Evaluable`: what a node needs is without a cycle, and nothing in it is missing.
* `Graph.evaluable_of_naive`: so it is where a socket has a value without a cache.
* `Graph.naive_of_evaluable`: where it is so, a socket has a value, or some sum is impossible.
* `Run.evaluable`: both hold of a read that a program makes.
-/

namespace PullGraph

open Relation

/-! ## Strict nodes that fail -/

theorem ReadsThenWrites.ne_setSum {inputs filled : List String} {output : String}
    {steps : List Instr} (h : ReadsThenWrites inputs output filled steps) {n : NodeRef}
    {name left right : String} {attempt : Bool} :
    .act (.edit (.setSum n name left right)) attempt ∉ steps := by
  induction h with
  | read _ _ ih => simpa using ih
  | write => simp

/-- Among the strict nodes only a sum fails of its own. -/
theorem Logic.Strict.eq_add {logic : Logic} (h : logic.Strict) {n : NodeRef}
    {name left right : String} {attempt : Bool}
    (hm : .act (.edit (.setSum n name left right)) attempt ∈ logic.program 1) : logic = .add := by
  cases h with
  | value v => simp [program] at hm
  | add => rfl
  | script hs => exact absurd hm hs.ne_setSum

namespace Graph

variable {g : Graph} {read : Socket → Except GraphError Value} {s : Socket} {v : Value}
  {output : String} {steps : List Instr} {registers : Table Value} {root : NodeId}
  {path : List NodeId}

/-- What the steps read is connected if they come to a value. -/
theorem exists_get_of_follow (h : Straight output steps)
    (hf : g.follow read s registers steps = .ok v) {input : String} {into : Option String}
    {attempt : Bool} (hm : .act (.demand (.input .self input) into) attempt ∈ steps) :
    ∃ t, (g.inputs s.owner).get input = .ok (some t) := by
  induction h generalizing registers with
  | read _ ih =>
    obtain ⟨t, u, hb, -, hf⟩ := (follow_read_eq_ok false).mp hf
    rcases List.mem_cons.mp hm with e | hm
    · cases e
      exact ⟨t, hb⟩
    · exact ih hf hm
  | write | sum => simp at hm

/-- Where what the steps read is connected, they come to a value, or a read fails, or a sum does. -/
theorem follow_cases (read : Socket → Except GraphError Value) (registers : Table Value)
    (h : Straight output steps)
    (hc : ∀ input into attempt, .act (.demand (.input .self input) into) attempt ∈ steps →
      ∃ t, (g.inputs s.owner).get input = .ok (some t)) :
    (∃ v, g.follow read s registers steps = .ok v) ∨
    (∃ t ∈ g.reads s.owner steps, ∃ e, read t = .error e ∧
      g.follow read s registers steps = .error e) ∨
    ∃ left right message, .act (.edit (.setSum .self output left right)) false ∈ steps ∧
      g.follow read s registers steps = .error (.computeFailed s.owner message) := by
  -- In the order of the steps, so that the first read that fails is the one that decides.
  induction h generalizing registers with
  | @read input into rest hs ih =>
    obtain ⟨t, hg⟩ := hc input into false List.mem_cons_self
    rw [follow_read_of_some hg, reads_read hg]
    cases ht : read t with
    | error e => exact .inr (.inl ⟨t, List.mem_cons_self, e, ht, rfl⟩)
    | ok u =>
      obtain hv | ⟨t', ht', e, he, hf⟩ | ⟨left, right, message, hm, hf⟩ :=
        ih ((into.map (registers.insert · u)).getD registers)
          fun input into attempt hm => hc input into attempt (List.mem_cons_of_mem _ hm)
      · exact .inl hv
      · exact .inr (.inl ⟨t', List.mem_cons_of_mem _ ht', e, he, hf⟩)
      · exact .inr (.inr ⟨left, right, message, List.mem_cons_of_mem _ hm, hf⟩)
  | write hsource => exact .inl ⟨_, follow_write 1 hsource⟩
  | @sum left right =>
    cases hsum : (Scope.register ⟨some s.owner, 1, registers⟩ left).add?
        (Scope.register ⟨some s.owner, 1, registers⟩ right) with
    | some sum => exact .inl ⟨sum, follow_sum_of_some hsum⟩
    | none => exact .inr (.inr ⟨left, right, _, List.mem_cons_self, follow_sum_of_none hsum⟩)

/-! ## Nodes that can be evaluated -/

variable (g) in
/-- What the node needs, itself included, is without a cycle; the inputs that are read there are
connected, and the unset sockets that they are bound to have not lost their owners. -/
structure Evaluable (id : NodeId) : Prop where
  acyclic : ∀ c, ReflTransGen g.Needs id c → ¬ TransGen g.Needs c c
  connected : ∀ c, ReflTransGen g.Needs id c → ∀ input into attempt,
    .act (.demand (.input .self input) into) attempt ∈ (g.logic c).program 1 →
      ∃ t, (g.inputs c).get input = .ok (some t)
  attended : ∀ c, ReflTransGen g.Needs id c → ∀ t ∈ g.reads c ((g.logic c).program 1),
    g.cell? t = none → g.alive t.owner = true

/-- A node can be evaluated if its inputs are connected and what they need can be evaluated. -/
theorem Evaluable.intro {id : NodeId}
    (hconn : ∀ input into attempt,
      .act (.demand (.input .self input) into) attempt ∈ (g.logic id).program 1 →
        ∃ t, (g.inputs id).get input = .ok (some t))
    (h : ∀ t ∈ g.reads id ((g.logic id).program 1), g.cell? t = none →
      g.alive t.owner = true ∧ g.Evaluable t.owner) : g.Evaluable id where
  acyclic c hr hc := by
    -- A cycle through the node goes through one that it needs.
    have hcycle {other : NodeId} (hn : g.Needs id other) (hr : ReflTransGen g.Needs other c) :
        False := by
      obtain ⟨t, ht, htc, rfl⟩ := hn
      exact (h t ht htc).2.acyclic c hr hc
    obtain rfl | ⟨other, hn, hr⟩ := hr.cases_head
    · obtain ⟨other, hn, hr⟩ := TransGen.head'_iff.mp hc
      exact hcycle hn hr
    · exact hcycle hn hr
  connected c hr := by
    obtain rfl | ⟨other, ⟨t, ht, htc, rfl⟩, hr⟩ := hr.cases_head
    · exact hconn
    · exact (h t ht htc).2.connected c hr
  attended c hr := by
    obtain rfl | ⟨other, ⟨t, ht, htc, rfl⟩, hr⟩ := hr.cases_head
    · exact fun t ht htc => (h t ht htc).1
    · exact (h t ht htc).2.attended c hr

/-- Where a socket has a value, so has one of every node that its owner needs. -/
theorem exists_naive_of_reaches (h : g.naive [] s = .ok v) (hc : g.cell? s = none) {c : NodeId}
    (hr : ReflTransGen g.Needs s.owner c) :
    ∃ t u, t.owner = c ∧ g.cell? t = none ∧ g.naive [] t = .ok u := by
  induction hr with
  | refl => exact ⟨s, v, rfl, hc, h⟩
  | tail _ hn ih =>
    obtain ⟨t, u, rfl, htc, ht⟩ := ih
    obtain ⟨t', ht', htc', rfl⟩ := hn
    obtain ⟨-, -, hf⟩ := follow_of_naive ht htc
    obtain ⟨u', hu'⟩ := exists_of_follow hf t' ht'
    exact ⟨t', u', rfl, htc', naive_of_subset hu' (List.nil_subset _)⟩

variable (hs : ∀ id, g.alive id = true → (g.logic id).Strict)

include hs

/-- The owner of an unset socket that has a value without a cache can be evaluated. -/
theorem evaluable_of_naive (h : g.naive [] s = .ok v) (hc : g.cell? s = none) :
    g.Evaluable s.owner where
  acyclic c hr := by
    obtain ⟨t, u, rfl, htc, ht⟩ := exists_naive_of_reaches h hc hr
    exact not_transGen_of_acc (acc_of_naive ht htc)
  connected c hr input into attempt hm := by
    obtain ⟨t, u, rfl, htc, ht⟩ := exists_naive_of_reaches h hc hr
    obtain ⟨ha, -, hf⟩ := follow_of_naive ht htc
    obtain ⟨output, -, hsteps, -⟩ := (hs t.owner ha).exists_straight
    exact exists_get_of_follow hsteps hf hm
  attended c hr t ht htc := by
    obtain ⟨t', u, rfl, htc', ht'⟩ := exists_naive_of_reaches h hc hr
    obtain ⟨-, -, hf⟩ := follow_of_naive ht' htc'
    obtain ⟨u', hu'⟩ := exists_of_follow hf t ht
    exact (follow_of_naive hu' htc).1

/-- What a node that can be evaluated needs has a value under every path by which it is needed, or
some sum on the way is impossible. -/
theorem naive_of_evaluable (path : List NodeId) (h : g.Evaluable root)
    (hr : g.cell? s = none → ReflTransGen g.Needs root s.owner)
    (ha : g.cell? s = none → g.alive s.owner = true)
    (hp : g.cell? s = none → ∀ id ∈ path, TransGen g.Needs id s.owner) :
    (∃ v, g.naive path s = .ok v) ∨ ∃ id message,
      g.naive path s = .error (.computeFailed id message) ∧ ReflTransGen g.Needs root id ∧
        g.logic id = .add := by
  induction path, s using naive.induct g with
  | case1 path s v hc => exact .inl ⟨v, naive_of_cell hc⟩
  -- All of the path needs the owner, so the owner is on it only if it is on a cycle.
  | case2 path s hc _ hmem => exact absurd (hp hc _ hmem) (h.acyclic _ (hr hc))
  | case4 path s hc hdead => exact absurd (ha hc) hdead
  | case3 path s hc hal hmem ih =>
    have hreach := hr hc
    obtain ⟨output, -, hsteps, -⟩ := (hs s.owner hal).exists_straight
    rw [naive_of_not_mem hc hal hmem]
    obtain hv | ⟨t, ht, e, he, hf⟩ | ⟨left, right, message, hm, hf⟩ :=
      follow_cases (g.naive (s.owner :: path)) .empty hsteps
        (h.connected s.owner hreach)
    · exact .inl hv
    · have hneeds (htc : g.cell? t = none) : g.Needs s.owner t.owner := ⟨t, ht, htc, rfl⟩
      rw [hf, ← he]
      refine ih t (fun htc => hreach.tail (hneeds htc)) (h.attended s.owner hreach t ht)
        fun htc id hid => ?_
      rcases List.mem_cons.mp hid with rfl | hid
      · exact .single (hneeds htc)
      · exact .tail (hp hc id hid) (hneeds htc)
    · exact .inr ⟨s.owner, message, hf, hreach, (hs s.owner hal).eq_add hm⟩

end Graph

/-! ## Runs -/

open Machine

variable {past : List Machine} {m : Machine}

/-- While all living nodes are strict, the read of an unset socket of a living node yields a value
only if the node can be evaluated; and if it can, the read fails at most for a sum. -/
theorem Run.evaluable (h : Run past m) (hi : m.idle = true)
    (hs : ∀ id, m.graph.alive id = true → (m.graph.logic id).Strict) {d : Demand}
    (into : Option String) {s : Socket} {holding : Option NodeId}
    (ht : d.target ⟨none, 0, .empty⟩ m.workspace = .ok (some s, holding))
    (hc : m.graph.cell? s = none) (ha : m.graph.alive s.owner = true) :
    ∃ (entry : Entry) (k : Machine),
      (∃ limit, ∀ more, limit ≤ more → m.exec more (.demand d into) = some (entry, k)) ∧
      ((∃ v, entry.result = .ok (.value v)) → m.graph.Evaluable s.owner) ∧
      (m.graph.Evaluable s.owner → (∃ v, entry.result = .ok (.value v)) ∨
        ∃ id message, entry.result = .error (.graph (.computeFailed id message)) ∧
          ReflTransGen m.graph.Needs s.owner id ∧ m.graph.logic id = .add) := by
  obtain ⟨entry, k, hentry, -, -, -, hexec⟩ := exists_exec (wired h) hs h hi (.refl _) d into
  rw [Workspace.naiveRead_of_some ht] at hentry
  refine ⟨entry, k, hexec, fun ⟨v, hv⟩ => ?_, fun he => ?_⟩
  · cases hn : m.graph.naive [] s with
    | ok u => exact Graph.evaluable_of_naive hs hn hc
    | error e =>
      rw [show m.workspace.graph.naive [] s = .error e from hn, hv] at hentry
      cases hentry
  · obtain ⟨v, hv⟩ | ⟨id, message, hv, hr, hadd⟩ :=
      Graph.naive_of_evaluable hs [] he (fun _ => .refl) (fun _ => ha) fun _ => nofun
    · exact .inl ⟨v, by rw [hentry, show m.workspace.graph.naive [] s = .ok v from hv]; rfl⟩
    · refine .inr ⟨id, message, ?_, hr, hadd⟩
      rw [hentry, show m.workspace.graph.naive [] s = .error _ from hv]
      rfl

/-- A sum of a constant with itself can be evaluated, and a sum with itself cannot. -/
theorem Run.evaluable_sum :
    ∃ past m, Run past m ∧ m.idle = true ∧
      (∀ id, m.graph.alive id = true → (m.graph.logic id).Strict) ∧
      (m.graph.Evaluable ⟨1⟩ ∧ ∃ (entry : Entry) (k : Machine),
        (∃ limit, ∀ more, limit ≤ more →
          m.exec more (.demand (.output (.label "sum") "v") none) = some (entry, k)) ∧
        entry.result = .ok (.value (.ofInt 10))) ∧
      (¬ m.graph.Evaluable ⟨2⟩ ∧ ∃ (entry : Entry) (k : Machine),
        (∃ limit, ∀ more, limit ≤ more →
          m.exec more (.demand (.output (.label "loop") "v") none) = some (entry, k)) ∧
        entry.result = .error (.graph (.cycleDetected ⟨⟨2⟩, "v"⟩))) := by
  have he : Machine.start.execAll 100
      [.edit (.create "five" .identifier (.value (.ofInt 5))),
        .edit (.create "sum" .identifier .add),
        .edit (.create "loop" .identifier .add),
        .edit (.connect (.label "sum") "v1" (.output (.label "five") "v")),
        .edit (.connect (.label "sum") "v2" (.output (.label "five") "v")),
        .edit (.connect (.label "loop") "v1" (.output (.label "loop") "v"))] = some (_, _) := rfl
  obtain ⟨⟨past, h⟩, hi⟩ := Run.start.of_execAll rfl he
  have hs := h.forall_alive (P := Logic.Strict) fun k hk => by
    have hk : k < 3 := hk
    rcases k with _ | _ | _ | k
    · exact .value _
    · exact .add
    · exact .add
    · omega
  obtain ⟨entry, k, ⟨limit, hexec⟩, hsum, -⟩ := h.evaluable hi hs
    (d := .output (.label "sum") "v") none (s := ⟨⟨1⟩, "v"⟩) rfl rfl rfl
  obtain ⟨entry', k', ⟨limit', hexec'⟩, -, hloop⟩ := h.evaluable hi hs
    (d := .output (.label "loop") "v") none (s := ⟨⟨2⟩, "v"⟩) rfl rfl rfl
  have hten : entry.result = .ok (.value (.ofInt 10)) :=
    result_eq_of_exec 100 (hexec limit (Nat.le_refl _)) rfl
  have hcycle : entry'.result = .error (.graph (.cycleDetected ⟨⟨2⟩, "v"⟩)) :=
    result_eq_of_exec 100 (hexec' limit' (Nat.le_refl _)) rfl
  refine ⟨past, _, h, hi, hs, ⟨hsum ⟨_, hten⟩, entry, k, ⟨limit, hexec⟩, hten⟩,
    fun hev => ?_, entry', k', ⟨limit', hexec'⟩, hcycle⟩
  obtain ⟨v, hv⟩ | ⟨id, message, hv, -⟩ := hloop hev
  · cases hcycle.symm.trans hv
  · cases hcycle.symm.trans hv

end PullGraph

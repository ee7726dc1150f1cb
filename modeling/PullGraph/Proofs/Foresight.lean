import PullGraph.Proofs.Pull
import PullGraph.Proofs.Walk

/-!
# Validation and reads

A validation looks at the wiring, and a read runs into it. Where the read leaves the wiring alone,
the validation has an issue for every error that the wiring can cause.

* `Report.Foresees`: there is an issue for an error.
* `Machine.Pulls.foresees_of_refuses`, `Machine.Pulls.foresees_of_falters`: a refusal or a failure
  during a read has its issue. `Machine.Pulls.not_refuses`: without an issue there is no refusal.
* `Run.foreseen`: so every error of a read has; and if there is no issue, the read fails only if a
  compute fails of its own.
-/

namespace PullGraph

open Relation

/-- The report has an issue for the error, if it is one that the wiring causes. -/
def Report.Foresees (r : Report) : GraphError → Prop
  | .cycleDetected _ => ∃ issue ∈ r.issues, issue.IsCycle
  | .ownerDropped output => ∃ node input, Issue.detached node input output ∈ r.issues
  | .unconnectedInput node input => Issue.unconnected node input ∈ r.issues
  | _ => True

namespace Machine

variable {past past₀ : List Machine} {m m₀ : Machine} {root : NodeId}
  {reads : NodeId → String → Prop} {e : GraphError}

/-- What a read runs into while it pulls has its issue. -/
theorem Pulls.foresees_of_refuses (hp : m.Pulls m₀.workspace root reads) (hr : Run past m)
    (h₀ : Run past₀ m₀) (ha : m₀.graph.alive root = true) (h : m.Refuses e) :
    (m₀.graph.validate root).Foresees e := by
  have hclosed := (firm h₀).bound
  obtain ⟨hc, d, into, attempt, rest', ht, h⟩ := h
  obtain ⟨f, rest, hf⟩ := List.exists_cons_of_ne_nil (hp.frames_ne_nil hc)
  have hown := hp.own f (hf ▸ List.mem_cons_self) _ (task_of_cons hf ▸ ht ▸ List.mem_cons_self)
  have hid : f.node ∈ m.stack := stack_of_cons hf ▸ List.mem_cons_self
  have hup := hp.upstream f.node hid
  rw [scope_of_cons hf] at h
  -- Either the input itself is at fault, or the socket that it is bound to: then the owner is dead,
  -- or it is further out on the stack and so depends on the node that reads.
  rcases h with h | ⟨s, holding, h, hans⟩
  · obtain ⟨name, -, hg | ⟨hg, rfl⟩⟩ := hown.exists_get_of_error h
    · obtain ⟨-, rfl⟩ := Inputs.get_eq_error hg
      trivial
    · rw [hp.grows.inputs_eq] at hg
      obtain ⟨slot, hs, rfl, hslot⟩ := Inputs.exists_slot_of_get hg
      exact Graph.mem_validate_of_unconnected hclosed ha hup hs (Option.map_eq_none_iff.mp hslot)
  · obtain ⟨name, -, hg⟩ := hown.exists_get h
    have halive : m.graph.alive s.owner = m₀.graph.alive s.owner := hp.grows.alive_eq s.owner
    obtain ⟨hcell, ⟨hal, rfl⟩ | ⟨hal, hcomp, rfl⟩⟩ := Graph.answer?_eq_error hans
    all_goals obtain ⟨slot, hs, -, ⟨hb, hal', hbinds⟩ | ⟨hb, hdead⟩⟩ := hp.exists_feeder hr hid hg
    · exact absurd (hal.symm.trans (halive.trans hal')) Bool.false_ne_true
    · exact ⟨f.node, slot.name, Graph.mem_validate_of_detached hclosed ha hup hs hb
        (hp.grows.unset s hcell)⟩
    · have hstack := ((mirrored hr).computing s.owner).mp hcomp
      have hcycle := TransGen.head' hbinds (hp.depends_of_mem_stack hf hstack)
      exact Graph.exists_cycle_of_transGen hclosed ha hup hcycle
    · exact absurd (hdead.symm.trans (halive.symm.trans hal)) Bool.false_ne_true

/-- An error that a compute of own steps has of its own is none that the wiring causes. -/
theorem Pulls.foresees_of_falters (hp : m.Pulls m₀.workspace root reads) (h : m.Falters e) :
    (m₀.graph.validate root).Foresees e := by
  obtain ⟨-, f, rest, hf, ⟨-, -, rfl⟩ | ⟨action, rest', ht, hn, hb⟩⟩ := h
  · trivial
  · have hown := hp.own f (hf ▸ List.mem_cons_self) _ (ht ▸ List.mem_cons_self)
    rw [scope_of_cons hf] at hb
    obtain ⟨key, rfl⟩ | ⟨message, rfl⟩ := hown.eq_of_error hn hb
    · trivial
    · trivial

/-- Where no issue was found and only declared inputs are read, no read is refused. -/
theorem Pulls.not_refuses (hp : m.Pulls m₀.workspace root reads) (hr : Run past m)
    (h₀ : Run past₀ m₀) (ha : m₀.graph.alive root = true)
    (hissues : (m₀.graph.validate root).issues = [])
    (hreads : ∀ id, ReflTransGen m₀.graph.Binds root id → ∀ name, reads id name →
      name ∈ (m₀.graph.logic id).inputNames) : ¬ m.Refuses e := by
  intro h
  have hforeseen := hp.foresees_of_refuses hr h₀ ha h
  obtain ⟨hc, d, into, attempt, rest', ht, h⟩ := h
  obtain ⟨f, rest, hf⟩ := List.exists_cons_of_ne_nil (hp.frames_ne_nil hc)
  have hown := hp.own f (hf ▸ List.mem_cons_self) _ (task_of_cons hf ▸ ht ▸ List.mem_cons_self)
  have hid : f.node ∈ m.stack := stack_of_cons hf ▸ List.mem_cons_self
  rw [scope_of_cons hf] at h
  rcases h with h | ⟨s, holding, -, hans⟩
  · obtain ⟨name, hname, hg | ⟨-, rfl⟩⟩ := hown.exists_get_of_error h
    · have hdeclared := hreads f.node (hp.upstream _ hid) name hname
      have hal := (firm h₀).alive_of_reaches (hp.upstream _ hid) ha
      rw [hp.grows.inputs_eq] at hg
      exact (Inputs.get_eq_error hg).1 ((names_inputs_eq h₀ hal).1 ▸ hdeclared)
    · simp [Report.Foresees, hissues] at hforeseen
  · obtain ⟨-, ⟨-, rfl⟩ | ⟨-, -, rfl⟩⟩ := Graph.answer?_eq_error hans
    · simp [Report.Foresees, hissues] at hforeseen
    · simp [Report.Foresees, hissues] at hforeseen

section Load

variable {d : Demand} {into : Option String} {s : Socket} {holding : Option NodeId}

/-- The read of a socket of a living node is not refused where it begins. -/
theorem not_refuses_load (h : Run past m) (hi : m.idle = true)
    (hd : (m.load (.demand d into)).Demands s holding) (ha : m.graph.alive s.owner = true) :
    ¬ ((m.load (.demand d into)).Refuses e ∨ (m.load (.demand d into)).Falters e) := by
  rintro (⟨-, d', into', attempt, rest, ht, hrefused⟩ | ⟨-, f, rest, hf, -⟩)
  · obtain ⟨-, d'', into'', attempt', rest', ht', htarget⟩ := hd
    obtain ⟨⟨rfl, rfl⟩, -⟩ := List.cons.inj (ht.symm.trans ht')
    rw [htarget] at hrefused
    obtain ⟨s', holding', e', hans⟩ := hrefused.resolve_left nofun
    cases e'
    obtain ⟨-, ⟨hal, -⟩ | ⟨-, hcomp, -⟩⟩ := Graph.answer?_eq_error hans
    · exact absurd (hal.symm.trans ha) Bool.false_ne_true
    · exact absurd (hcomp.symm.trans (computing_of_idle h hi s.owner)) Bool.false_ne_true.symm
  · rw [show (m.load (.demand d into)).frames = [] from (idle_cases hi).2.1] at hf
    cases hf

theorem not_failed_load (hi : m.idle = true) : ¬ (m.load (.demand d into)).Failed e := by
  rintro (hc | ⟨who, d', into', ht⟩)
  · rw [show (m.load (.demand d into)).control = .running from (idle_cases hi).1] at hc
    cases hc
  · cases ht

end Load

end Machine

open Machine

/-- A read of the socket `s` at the top level runs into nothing that a validation of the owner has no
issue for. -/
structure Foreseen (m : Machine) (d : Demand) (into : Option String) (s : Socket) : Prop where
  /-- The read comes to an end. -/
  ends : ∃ (entry : Entry) (k : Machine) (limit : Nat), ∀ more, limit ≤ more →
    m.exec more (.demand d into) = some (entry, k)
  /-- An error that any read on the way returns has its issue, whether or not it is handed on. -/
  errors : ∀ k, (m.load (.demand d into)).Reaches k → ∀ who d' into' e,
    Event.did who (.demand d' into') (.error (.graph e)) ∈ k.trace →
      (m.graph.validate s.owner).Foresees e
  /-- If there is no issue, the nodes read declared inputs only, and no compute fails of its own while
  no read has failed, then the read yields a value. -/
  clean : (m.graph.validate s.owner).issues = [] →
    (∀ id, ReflTransGen m.graph.Binds s.owner id →
      (m.graph.logic id).OwnInput (· ∈ (m.graph.logic id).inputNames)) →
    (∀ k, (m.load (.demand d into)).Reaches k → (∀ e, ¬ k.Failed e) → ∀ e, ¬ k.Falters e) →
      ∃ (v : Value) (entry : Entry) (k : Machine), entry.result = .ok (.value v) ∧
        k.graph.cell? s = some v ∧ ∃ limit, ∀ more, limit ≤ more →
          m.exec more (.demand d into) = some (entry, k)

variable {past : List Machine} {m : Machine}

/-- Where a read depends on nodes that only read their own inputs and write their own outputs,
validation foresees what it runs into. -/
theorem Run.foreseen (h : Run past m) (hi : m.idle = true) {d : Demand} {into : Option String}
    {s : Socket} {holding : Option NodeId}
    (ht : d.target ⟨none, 0, .empty⟩ m.workspace = .ok (some s, holding))
    (ha : m.graph.alive s.owner = true)
    (ho : ∀ id, ReflTransGen m.graph.Binds s.owner id →
      (m.graph.logic id).OwnInput fun _ => True) : Foreseen m d into s := by
  have hd : (m.load (.demand d into)).Demands s holding := demands_of_load hi ht
  refine ⟨?_, fun k hk who d' into' e he => ?_, fun hissues hreads hfalters => ?_⟩
  · obtain ⟨outcome, n, hr⟩ := exists_reads_of_load h hi hd ha ho
    obtain ⟨-, -, entry, -, limit, hexec⟩ := exists_exec_of_reads hi hr
    exact ⟨entry, _, limit, hexec⟩
  -- An error is traced back to the move at which it came up, and at that moment the read pulls.
  · refine hk.failed (fun e he => (not_failed_load hi he).elim) (fun n hn hp _ e he => ?_) e
      (.inr ⟨who, d', into', he⟩)
    rcases pulls_of_reaches h hi hd ha ho hn with rfl | hpulls | hidle
    · exact (not_refuses_load h hi hd ha he).elim
    · obtain ⟨past', hr, -⟩ := (h.load (.demand d into) hi).leads hn
      exact he.elim (hpulls.foresees_of_refuses hr h ha) hpulls.foresees_of_falters
    · exact absurd (hp.symm.trans hidle) Bool.false_ne_true
  · obtain ⟨outcome, n, hr⟩ := exists_reads_of_load h hi hd ha hreads
    obtain ⟨hreach, -, entry, hentry, hexec⟩ := exists_exec_of_reads hi hr
    have hnot : ∀ e, ¬ n.Failed e := by
  -- No error is the first one: a refusal would have its issue, and a compute fails only after one.
      refine hreach.failed (Q := fun _ => False) (fun e he => not_failed_load hi he)
        fun k hk hp hnone e he => ?_
      rcases pulls_of_reaches h hi hd ha hreads hk with rfl | hpulls | hidle
      · exact not_refuses_load h hi hd ha he
      · obtain ⟨past', hrun, -⟩ := (h.load (.demand d into) hi).leads hk
        rcases he with he | he
        · exact hpulls.not_refuses hrun h ha hissues (fun _ _ _ hn => hn) he
        · exact hfalters k hk hnone e he
      · exact absurd (hp.symm.trans hidle) Bool.false_ne_true
    cases outcome with
    | error e => exact (hnot e (.inl hr.control_eq)).elim
    | ok v =>
      exact ⟨v, entry, n.move, hentry, hr.cell?_move (h.load (.demand d into) hi), hexec⟩

/-- A sum that tries to read an input without a binding, and a copy of the constant that its other
input is bound to. -/
theorem Run.foreseen_sum :
    ∃ past m k, Run past m ∧ m.idle = true ∧
      Foreseen m (.output (.label "sum") "v") none ⟨⟨1⟩, "v"⟩ ∧
      (m.load (.demand (.output (.label "sum") "v") none)).Reaches k ∧
      (∃ who d into, Event.did who (.demand d into)
        (.error (.graph (.unconnectedInput ⟨1⟩ "v2"))) ∈ k.trace) ∧
      Issue.unconnected ⟨1⟩ "v2" ∈ (m.graph.validate ⟨1⟩).issues ∧
      (m.graph.inputs ⟨2⟩).values = [some ⟨⟨0⟩, "v"⟩] ∧ m.graph.cell? ⟨⟨0⟩, "v"⟩ = none ∧
      (m.graph.validate ⟨2⟩).issues = [] ∧
      ∃ (entry : Entry) (k : Machine), entry.result = .ok (.value (.ofInt 5)) ∧
        k.graph.cell? ⟨⟨2⟩, "v"⟩ = some (.ofInt 5) ∧ ∃ limit, ∀ more, limit ≤ more →
          m.exec more (.demand (.output (.label "copy") "v") none) = some (entry, k) := by
  have he : Machine.start.execAll 100
      [.edit (.create "five" .identifier (.value (.ofInt 5))),
        .edit (.create "sum" .identifier (.script ["v1", "v2"] ["v"] "Sum"
          [[.act (.demand (.input .self "v1") (some "a")) false,
            .act (.demand (.input .self "v2") (some "b")) true,
            .act (.edit (.setOutput .self "v" (.register "a"))) false]])),
        .edit (.create "copy" .identifier (.script ["v1"] ["v"] "Copy"
          [[.act (.demand (.input .self "v1") (some "a")) false,
            .act (.edit (.setOutput .self "v" (.register "a"))) false]])),
        .edit (.connect (.label "sum") "v1" (.output (.label "five") "v")),
        .edit (.connect (.label "copy") "v1" (.output (.label "five") "v"))] = some (_, _) := rfl
  obtain ⟨⟨past, h⟩, hi⟩ := Run.start.of_execAll rfl he
  have hown := h.forall_alive
    (P := fun logic => logic.OwnInput (· ∈ logic.inputNames)) fun k hk => by
      have hk : k < 3 := hk
      rcases k with _ | _ | _ | k
      · exact Logic.ownInput_of_not_script rfl
      · refine Logic.ownInput_script fun steps hs i hi => ?_
        obtain rfl := List.mem_singleton.mp hs
        simp only [List.mem_cons, List.not_mem_nil, or_false] at hi
        rcases hi with rfl | rfl | rfl
        · exact .input (by decide)
        · exact .input (by decide)
        · exact .setOutput
      · refine Logic.ownInput_script fun steps hs i hi => ?_
        obtain rfl := List.mem_singleton.mp hs
        simp only [List.mem_cons, List.not_mem_nil, or_false] at hi
        rcases hi with rfl | rfl
        · exact .input (by decide)
        · exact .setOutput
      · omega
  have hsum : Foreseen _ (.output (.label "sum") "v") none ⟨⟨1⟩, "v"⟩ :=
    h.foreseen hi rfl rfl fun id hr call i hi =>
      (hown id ((firm h).alive_of_reaches hr rfl) call i hi).mono fun _ _ => trivial
  have hcopy : Foreseen _ (.output (.label "copy") "v") none ⟨⟨2⟩, "v"⟩ :=
    h.foreseen hi rfl rfl fun id hr call i hi =>
      (hown id ((firm h).alive_of_reaches hr rfl) call i hi).mono fun _ _ => trivial
  have hclean := hcopy.clean rfl (fun id hr => hown id ((firm h).alive_of_reaches hr rfl))
    fun k hk _ e he => by
      -- The read takes eight moves, and none of them can fail.
      rcases hk with _ | ⟨-, _ | ⟨-, _ | ⟨-, _ | ⟨-, _ | ⟨-, _ | ⟨-, _ | ⟨-, _ | ⟨-, _ | ⟨hi, -⟩⟩⟩⟩⟩⟩⟩⟩⟩
      · obtain ⟨-, f, rest, hf, -⟩ := he
        cases hf
      · exact not_falters_of_demand rfl rfl he
      · exact not_falters_of_begin rfl rfl rfl he
      · exact not_falters_of_nil rfl rfl rfl he
      · cases he.1
      · exact not_falters_of_begin rfl rfl rfl he
      · exact not_falters_of_nil rfl rfl rfl he
      · cases he.1
      · obtain ⟨-, f, rest, hf, -⟩ := he
        cases hf
      · cases hi
  obtain ⟨v, entry, k, hresult, hcell, limit, hexec⟩ := hclean
  have hfive : entry.result = .ok (.value (.ofInt 5)) :=
    result_eq_of_exec 100 (hexec limit (Nat.le_refl _)) rfl
  obtain rfl : v = .ofInt 5 := Reply.value.inj (Except.ok.inj (hresult.symm.trans hfive))
  refine ⟨past, _, _, h, hi, hsum,
    .move rfl (.move rfl (.move rfl (.move rfl (.move rfl (.move rfl (.refl _)))))), ?_, ?_, rfl, rfl,
    rfl, entry, k, hfive, hcell, limit, hexec⟩
  · exact ⟨some ⟨1⟩, .input .self "v2", some "b", List.mem_cons_self⟩
  · exact hsum.errors _
      (.move rfl (.move rfl (.move rfl (.move rfl (.move rfl (.move rfl (.refl _)))))))
      (some ⟨1⟩) (.input .self "v2") (some "b") _ List.mem_cons_self

end PullGraph

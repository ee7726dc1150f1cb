import PullGraph.Proofs.Evaluation
import PullGraph.Proofs.Path

/-!
# Reads with a cache

A read writes down values on its way, and leaves some of them there even if it fails. It matters to
no later read.

* `Straight`: what the computes of strict nodes look like.
* `Workspace.Caches`: a workspace that differs from another one in what has been computed since, each
  value being the one that an evaluation without a cache gives.
* `Asks`, `Follows`: a read, or the steps of a compute, within such workspaces.
* `Evaluates.agrees`: they come to what `Graph.naive` and `Graph.follow` say. The outcome of a read may
  depend on the path that it is under, and what is written down must not; `Graph.naive_of_needed` and
  `Graph.naive_of_subset` tell that values do not.
-/

namespace PullGraph

/-! ## Strict programs -/

/-- Reads of inputs, and then one write. -/
inductive Straight (output : String) : List Instr → Prop
  | read {input : String} {into : Option String} {rest : List Instr} : Straight output rest →
      Straight output (.act (.demand (.input .self input) into) false :: rest)
  | write {source : Source} : source ≠ .callNumber →
      Straight output [.act (.edit (.setOutput .self output source)) false]
  | sum {left right : String} :
      Straight output [.act (.edit (.setSum .self output left right)) false]

theorem ReadsThenWrites.straight {inputs filled : List String} {output : String} {steps : List Instr}
    (h : ReadsThenWrites inputs output filled steps) : Straight output steps := by
  induction h with
  | read _ _ ih => exact .read ih
  | write hf =>
    refine .write fun e => ?_
    subst e
    exact hf

theorem Straight.own {output : String} {steps : List Instr} (h : Straight output steps) :
    ∀ i ∈ steps, i.Own fun _ => True := by
  induction h with
  | read _ ih => exact List.forall_mem_cons.mpr ⟨.input trivial, ih⟩
  | write => exact List.forall_mem_singleton.mpr .setOutput
  | sum => exact List.forall_mem_singleton.mpr .setSum

/-- A strict node has one output, and all its computes follow the same steps. -/
theorem Logic.Strict.exists_straight {logic : Logic} (h : logic.Strict) :
    ∃ output, logic.outputNames = [output] ∧ Straight output (logic.program 1) ∧
      ∀ call, logic.program call = logic.program 1 := by
  cases h with
  | value v => exact ⟨"v", rfl, .write (by simp), fun _ => rfl⟩
  | add => exact ⟨"v", rfl, .read (.read .sum), fun _ => rfl⟩
  | @script inputs output typeName steps hs =>
    refine ⟨output, rfl, hs.straight, fun call => ?_⟩
    cases hc : call - 1 <;> simp [program, hc]

theorem Logic.Strict.ownInput {logic : Logic} (h : logic.Strict) :
    logic.OwnInput fun _ => True := by
  obtain ⟨output, -, hsteps, hprogram⟩ := h.exists_straight
  intro call
  rw [hprogram]
  exact hsteps.own

/-! ## What has been computed since -/

/-- The second workspace is the first one after some reads: its further values are what the sockets
are worth in the first. -/
structure Workspace.Caches (w₀ w : Workspace) : Prop extends w₀.Grows w where
  naive_eq : ∀ s v, w.graph.cell? s = some v → w₀.graph.naive [] s = .ok v

namespace Workspace.Caches

variable {w₀ w : Workspace} {s : Socket} {v : Value}

theorem refl (w : Workspace) : w.Caches w := ⟨.refl w, fun _ _ => Graph.naive_of_cell⟩

theorem enter (h : w₀.Caches w) (id : NodeId) : w₀.Caches (w.setGraph (w.graph.enter id)) where
  toGrows := h.toGrows.enter id
  naive_eq s v hv := h.naive_eq s v ((Graph.cell?_enter _ _ _).symm.trans hv)

theorem leave (h : w₀.Caches w) (id : NodeId) : w₀.Caches (w.setGraph (w.graph.leave id)) where
  toGrows := h.toGrows.leave id
  naive_eq s v hv := h.naive_eq s v ((Graph.cell?_leave _ _ _).symm.trans hv)

theorem fill (h : w₀.Caches w) (hd : w.graph.Declares s) (hv : w₀.graph.naive [] s = .ok v) :
    w₀.Caches (w.setGraph (w.graph.fill s v)) where
  toGrows := h.toGrows.fill hd v
  naive_eq t u ht := by
    have ht : (w.graph.fill s v).cell? t = some u := ht
    rw [Graph.cell?_fill _ _ hd] at ht
    split at ht
    · next e => cases ht; exact e ▸ hv
    · exact h.naive_eq t u ht

/-- The read of an input is about what it was bound to. -/
theorem get_of_begin (h : w₀.Caches w) {id : NodeId} {call : Nat} {registers : Table Value}
    {input : String} {into : Option String} {t : Socket} {holding : Option NodeId}
    (hb : (Action.demand (.input .self input) into).begin ⟨some id, call, registers⟩ w =
      .ok (.demand t holding)) : (w₀.graph.inputs id).get input = .ok (some t) :=
  h.inputs_eq id ▸ Action.get_of_begin hb

end Workspace.Caches

/-! ## Reads with a cache -/

open PullGraph.Graph Relation

/-- A read of the socket begins in a workspace that is `w₀` after some reads, while the computes of
the path are in progress. If the socket has to be computed they all need it. -/
structure Asks (w₀ : Workspace) (path : List NodeId) (w : Workspace) (s : Socket) : Prop where
  caches : w₀.Caches w
  busy_iff : ∀ id, w.graph.busy id = true ↔ id ∈ path
  declares : w₀.graph.Declares s
  needed : w₀.graph.cell? s = none → ∀ id ∈ path, TransGen w₀.graph.Needs id s.owner

/-- A compute that was started for the socket has these steps left, on top of the computes of the
path. What it comes to write is what the socket is worth. -/
structure Follows (w₀ : Workspace) (path : List NodeId) (w : Workspace) (s : Socket)
    (registers : Table Value) (todo : List Instr) : Prop where
  caches : w₀.Caches w
  busy_iff : ∀ id, w.graph.busy id = true ↔ id ∈ s.owner :: path
  declares : w₀.graph.Declares s
  straight : Straight s.name todo
  needed : ∀ t ∈ w₀.graph.reads s.owner todo, w₀.graph.cell? t = none →
    ∀ id ∈ s.owner :: path, TransGen w₀.graph.Needs id t.owner
  worth : ∀ v, w₀.graph.follow (w₀.graph.naive (s.owner :: path)) s registers todo = .ok v →
    w₀.graph.naive [] s = .ok v

variable {w₀ w w₁ w' : Workspace} {path : List NodeId} {s t : Socket} {call : Nat}
  {registers : Table Value} {todo : List Instr} {outcome : Except GraphError Value}

namespace Asks

/-- An answer that needs no compute is the outcome without the cache. -/
theorem naive_of_answer (h : Asks w₀ path w s) (ha : w.graph.answer? s = some outcome) :
    w₀.graph.naive path s = outcome := by
  have hal : w.graph.alive s.owner = w₀.graph.alive s.owner := h.caches.alive_eq s.owner
  unfold answer? at ha
  cases hcell : w.graph.cell? s with
  | some v =>
    rw [hcell] at ha
    cases ha
    have hnil := h.caches.naive_eq s v hcell
    cases hcell₀ : w₀.graph.cell? s with
    | some u =>
      rw [naive_of_cell hcell₀] at hnil ⊢
      exact hnil
    | none => exact naive_of_needed hnil (h.needed hcell₀)
  | none =>
    have hcell₀ := h.caches.unset s hcell
    rw [hcell, hal, computing_eq, hal] at ha
    cases ha₀ : w₀.graph.alive s.owner with
    | false =>
      rw [ha₀] at ha
      cases ha
      exact naive_of_dead hcell₀ ha₀
    | true =>
      rw [ha₀] at ha
      cases hb : w.graph.busy s.owner with
      | false =>
        rw [hb] at ha
        cases ha
      | true =>
        rw [hb] at ha
        cases ha
        exact naive_of_mem hcell₀ ha₀ ((h.busy_iff _).mp hb)

/-- What has to be computed is alive and not on the path. -/
theorem of_no_answer (h : Asks w₀ path w s) (ha : w.graph.answer? s = none) :
    w₀.graph.cell? s = none ∧ w₀.graph.alive s.owner = true ∧ s.owner ∉ path := by
  obtain ⟨hcell, hal, -⟩ := answer?_eq_none_iff.mp ha
  refine ⟨h.caches.unset s hcell, h.caches.alive_eq s.owner ▸ hal, fun hp => ?_⟩
  have hb := (h.busy_iff _).mpr hp
  rw [busy_eq_false_of_answer? ha] at hb
  cases hb

/-- The compute that the read starts. -/
theorem follows (h : Asks w₀ path w s) (ha : w.graph.answer? s = none) (hw : w₀.Wired)
    (hs : ∀ id, w₀.graph.alive id = true → (w₀.graph.logic id).Strict) (call : Nat) :
    w₀.graph.naive path s = w₀.graph.follow (w₀.graph.naive (s.owner :: path)) s .empty
        ((w.graph.logic s.owner).program call) ∧
      Follows w₀ path (w.setGraph (w.graph.enter s.owner)) s .empty
        ((w.graph.logic s.owner).program call) := by
  obtain ⟨hcell, hal, hp⟩ := h.of_no_answer ha
  obtain ⟨output, ho, hsteps, hprogram⟩ := (hs s.owner hal).exists_straight
  obtain rfl : s.name = output := by
    have hname := declares_iff.mp h.declares
    rw [hw.names_eq, ho] at hname
    exact List.mem_singleton.mp hname
  rw [h.caches.logic_eq, hprogram call]
  refine ⟨naive_of_not_mem hcell hal hp, h.caches.enter s.owner, fun id => ?_, h.declares,
    hsteps, fun t ht htc id hid => ?_, fun v hv => ?_⟩
  · change (w.graph.enter s.owner).busy id = true ↔ _
    rw [busy_enter (h.caches.alive_eq s.owner ▸ hal), Bool.or_eq_true, decide_eq_true_iff,
      h.busy_iff, List.mem_cons]
  · have hstep : w₀.graph.Needs s.owner t.owner := ⟨t, ht, htc, rfl⟩
    rcases List.mem_cons.mp hid with rfl | hid
    · exact .single hstep
    · exact .tail (h.needed hcell id hid) hstep
  · exact naive_of_subset ((naive_of_not_mem hcell hal hp).trans hv) (List.nil_subset path)

end Asks

namespace Follows

variable {input : String} {into : Option String} {v : Value}

/-- The read of an input begins. -/
theorem asks (h : Follows w₀ path w s registers
      (.act (.demand (.input .self input) into) false :: todo)) (hw : w₀.Wired)
    (hg : (w₀.graph.inputs s.owner).get input = .ok (some t)) : Asks w₀ (s.owner :: path) w t where
  caches := h.caches
  busy_iff := h.busy_iff
  declares := hw.bound _ _ (Inputs.mem_values_of_get hg)
  needed := h.needed t (by rw [reads_read hg]; exact List.mem_cons_self)

/-- The read of an input has yielded a value. -/
theorem rest (h : Follows w₀ path w s registers
      (.act (.demand (.input .self input) into) false :: todo))
    (hg : (w₀.graph.inputs s.owner).get input = .ok (some t))
    (hv : w₀.graph.naive (s.owner :: path) t = .ok v) (hc : w₀.Caches w₁)
    (hb : ∀ id, w₁.graph.busy id = true ↔ w.graph.busy id = true) :
    Follows w₀ path w₁ s (registers.keep into v) todo where
  caches := hc
  busy_iff id := (hb id).trans (h.busy_iff id)
  declares := h.declares
  straight := by
    cases h.straight with
    | read hs => exact hs
  needed u hu := h.needed u (by rw [reads_read hg]; exact List.mem_cons_of_mem _ hu)
  worth u hu := h.worth u (by rw [follow_read_of_some hg, hv]; exact hu)

/-- The only step that is over by itself is the write, after all reads, and it fills the socket. -/
theorem exists_fill {action : Action} {attempt : Bool} {reply : Reply} {records : List Record}
    (h : Follows w₀ path w s registers (.act action attempt :: todo))
    (hb : Begins w s call registers action attempt (.ok (.done reply w₁ records))) :
    ∃ v, todo = [] ∧ w₁ = w.setGraph (w.graph.fill s v) ∧
      w₀.graph.reads s.owner (.act action attempt :: todo) = [] ∧
        w₀.graph.follow (w₀.graph.naive (s.owner :: path)) s registers (.act action attempt :: todo) =
          .ok v := by
  have hd := h.caches.declares_iff.mpr h.declares
  have hbegin := hb.begin_eq
  cases h.straight with
  | @read input =>
    rw [Action.begin_input] at hbegin
    rcases hg : (w.graph.inputs s.owner).get input with e | _ | t <;> rw [hg] at hbegin <;>
      cases hbegin
  | write hsource =>
    rw [Action.begin_setOutput hd] at hbegin
    cases hbegin
    exact ⟨_, rfl, rfl, rfl, follow_write call hsource⟩
  | @sum left right =>
    cases hsum : (Scope.register ⟨some s.owner, call, registers⟩ left).add?
        (Scope.register ⟨some s.owner, call, registers⟩ right) with
    | none => rw [Action.begin_setSum_of_none hsum] at hbegin; cases hbegin
    | some sum =>
      rw [Action.begin_setSum hd hsum] at hbegin
      cases hbegin
      exact ⟨sum, rfl, rfl, rfl, follow_sum_of_some hsum⟩

/-- A step that is refused is refused without a cache too. -/
theorem eq_error {action : Action} {attempt : Bool} {e : GraphError}
    (h : Follows w₀ path w s registers (.act action attempt :: todo))
    (hb : Begins w s call registers action attempt (.error (.graph e))) :
    w₀.graph.follow (w₀.graph.naive (s.owner :: path)) s registers (.act action attempt :: todo) =
      .error e := by
  have hd := h.caches.declares_iff.mpr h.declares
  have hbegin := hb.begin_eq
  cases h.straight with
  | @read input =>
    rw [Action.begin_input, h.caches.inputs_eq] at hbegin
    rcases hg : (w₀.graph.inputs s.owner).get input with e | _ | t <;> rw [hg] at hbegin <;>
      cases hbegin
    · exact follow_read_of_error hg
    · exact follow_read_of_none hg
  | write => rw [Action.begin_setOutput hd] at hbegin; cases hbegin
  | @sum left right =>
    cases hsum : (Scope.register ⟨some s.owner, call, registers⟩ left).add?
        (Scope.register ⟨some s.owner, call, registers⟩ right) with
    | some sum => rw [Action.begin_setSum hd hsum] at hbegin; cases hbegin
    | none =>
      rw [Action.begin_setSum_of_none hsum] at hbegin
      cases hbegin
      exact follow_sum_of_none hsum

/-- The write is the last step, and the read that started the compute gets the value. -/
theorem of_fill (h : Follows w₀ path w s registers todo)
    (hv : w₀.graph.follow (w₀.graph.naive (s.owner :: path)) s registers todo = .ok v)
    {log : List NodeId} {registers' : Table Value}
    (he : Evaluates (w.setGraph (w.graph.fill s v)) (.steps s call registers' []) log outcome w') :
    outcome = .ok v ∧ w₀.Caches w' := by
  have hd := h.caches.declares_iff.mpr h.declares
  cases he with
  | finish =>
    refine ⟨?_, (h.caches.fill hd (h.worth v hv)).leave s.owner⟩
    change (w.graph.fill s v).yield s = _
    rw [yield, cell?_fill _ _ hd, if_pos rfl]

end Follows

/-- The job comes to what it comes to without a cache, and leaves only values that are right. -/
def Agrees (w₀ w : Workspace) (job : Job) (outcome : Except GraphError Value) (w' : Workspace) :
    Prop :=
  match job with
  | .read s => ∀ path, Asks w₀ path w s → outcome = w₀.graph.naive path s ∧ w₀.Caches w'
  | .steps s _ registers todo => ∀ path, Follows w₀ path w s registers todo →
    outcome = w₀.graph.follow (w₀.graph.naive (s.owner :: path)) s registers todo ∧ w₀.Caches w'

/-- With a cache a read comes to what it is worth without one, and a compute to what its steps say. -/
theorem Evaluates.agrees {job : Job} {log : List NodeId} (h : Evaluates w job log outcome w')
    (hw : w₀.Wired) (hs : ∀ id, w₀.graph.alive id = true → (w₀.graph.logic id).Strict) :
    Agrees w₀ w job outcome w' := by
  induction h with
  | answer ha => exact fun path hf => ⟨(hf.naive_of_answer ha).symm, hf.caches⟩
  | compute ha he ih =>
    intro path hf
    -- The read adds the node to the path, as the compute sets its mark.
    obtain ⟨hnaive, hfollows⟩ := hf.follows ha hw hs _
    rw [hnaive]
    exact ih path hfollows
  | finish | branch | skip | swallow =>
    intro path hf
    cases hf.straight
  | done hb he _ =>
    intro path hf
    obtain ⟨v, rfl, rfl, -, hv⟩ := hf.exists_fill hb
    rw [hv]
    exact hf.of_fill hv he
  | @stop w s call registers action e todo hb =>
    exact fun path hf => ⟨(hf.eq_error hb).symm, hf.caches.leave s.owner⟩
  | value hb he he' ih ih' =>
    intro path hf
    cases hf.straight with
    | read =>
      have hg := hf.caches.get_of_begin hb.begin_eq
      obtain ⟨hv, hc⟩ := ih _ (hf.asks hw hg)
      rw [follow_read_of_some hg, ← hv]
      exact ih' path (hf.rest hg hv.symm hc he.advances.busy_iff_of_read)
  | fail hb he ih =>
    intro path hf
    cases hf.straight with
    | read =>
      have hg := hf.caches.get_of_begin hb.begin_eq
      obtain ⟨hv, hc⟩ := ih _ (hf.asks hw hg)
      rw [follow_read_of_some hg, ← hv]
      exact ⟨rfl, hc.leave _⟩

end PullGraph

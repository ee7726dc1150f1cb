import PullGraph.Proofs.Evaluation

/-!
# Sums of integers

An adder adds two integers exactly where the signed range of 64 bits allows it, and never by
wrapping around.

* `Number.Summed`: what two integers come to. The sum is an integer exactly if both operands and the
  sum are signed, and otherwise a finite float or nothing.
* `Number.add?_summed`: this is what `Number.add?` gives.
* `Evaluates.of_add`: the compute of an adder whose two reads have yielded values.
* `Machine.Adds`: a read of an adder between two sockets that hold values.
  `Machine.Adds.exists_exec`: it comes to the sum of the values.
* `Run.summed`: what a read of an adder between two integers comes to in any run, and what it leaves
  in the cell.
* `Run.not_summed_of_unsigned`: an operand above the signed range is enough to make the sum a float,
  also where the sum itself is in range.
-/

namespace PullGraph

/-! ## Numbers -/

namespace Number

/-- What the sum of two integers of 64 bits has to be. -/
structure Summed (a b : Int) (sum? : Option Number) : Prop where
  /-- It is an integer exactly if the operands and the sum are signed, and then it is exact. -/
  int_iff : ∀ n inRange, sum? = some (.int n inRange) ↔
    (Signed a ∧ Signed b ∧ Signed (a + b)) ∧ n = a + b
  /-- Otherwise it is the sum of the nearest floats, or nothing if that is not finite. -/
  float : ¬ (Signed a ∧ Signed b ∧ Signed (a + b)) →
    sum? = if (nearest a + nearest b).isFinite then some (.float (nearest a + nearest b)) else none

variable {a b : Int} {ha : InRange a} {hb : InRange b}

theorem signed?_int : (int a ha).signed? = if Signed a then some a else none := rfl

theorem addFloat?_int : (int a ha).addFloat? (int b hb) =
    if (nearest a + nearest b).isFinite then some (.float (nearest a + nearest b)) else none := rfl

theorem addFloat?_ne_int {m n : Number} {k : Int} {hk : InRange k} :
    m.addFloat? n ≠ some (.int k hk) := by
  unfold addFloat?
  simp only
  split <;> exact nofun

theorem add?_of_signed (h : Signed a) (h' : Signed b) (hs : Signed (a + b)) :
    (int a ha).add? (int b hb) = some (.int (a + b) hs.inRange) := by
  simp only [add?, signed?_int, if_pos h, if_pos h', dif_pos hs]

theorem add?_of_not_signed (h : ¬ (Signed a ∧ Signed b ∧ Signed (a + b))) :
    (int a ha).add? (int b hb) = (int a ha).addFloat? (int b hb) := by
  simp only [add?, signed?_int]
  by_cases h₁ : Signed a
  · by_cases h₂ : Signed b
    · have h₃ : ¬ Signed (a + b) := fun h₃ => h ⟨h₁, h₂, h₃⟩
      simp only [if_pos h₁, if_pos h₂, dif_neg h₃]
    · simp only [if_pos h₁, if_neg h₂]
  · simp only [if_neg h₁]

/-- Integers add exactly in the signed range, and as floats beyond it. -/
theorem add?_summed (ha : InRange a) (hb : InRange b) :
    Summed a b ((int a ha).add? (int b hb)) := by
  -- Integers are added as such in one case only, in which no float comes out; in all others a float
  -- does, or nothing.
  by_cases h : Signed a ∧ Signed b ∧ Signed (a + b)
  · refine ⟨fun n hn => ?_, fun hno => absurd h hno⟩
    rw [add?_of_signed h.1 h.2.1 h.2.2, Option.some.injEq, Number.int.injEq, and_iff_right h]
    exact eq_comm
  · refine ⟨fun n hn => ⟨fun e => ?_, fun hs => absurd hs.1 h⟩, fun _ => ?_⟩
    · exact absurd (add?_of_not_signed h ▸ e) addFloat?_ne_int
    · rw [add?_of_not_signed h]
      exact addFloat?_int

end Number

/-! ## Adders -/

/-- What the read of an adder comes to when its inputs have yielded these values. -/
def Graph.sumOutcome (id : NodeId) (a b : Value) : Except GraphError Value :=
  match a.add? b with
  | some sum => .ok sum
  | none => .error (.computeFailed id ("cannot add " ++ a.text ++ " and " ++ b.text))

theorem Graph.sumOutcome_of_some (id : NodeId) {a b sum : Number} (h : a.add? b = some sum) :
    sumOutcome id (.number a) (.number b) = .ok (.number sum) := by
  simp only [sumOutcome, Value.add?, h, Option.map_some]

theorem Graph.sumOutcome_of_none (id : NodeId) {a b : Number} (h : a.add? b = none) :
    ∃ message, sumOutcome id (.number a) (.number b) = .error (.computeFailed id message) := by
  simp only [sumOutcome, Value.add?, h, Option.map_none]
  exact ⟨_, rfl⟩

section Adder

variable {w w₁ w₂ : Workspace} {s t₁ t₂ : Socket} {a b : Value} {log₁ log₂ : List NodeId}

/-- The last step of an adder, after both of its reads. -/
theorem Evaluates.of_setSum (hd : w.graph.Declares s) (call : Nat) (registers : Table Value)
    (left right : String) :
    ∃ w', Evaluates w
      (.steps s call registers [.act (.edit (.setSum .self s.name left right)) false]) []
      (Graph.sumOutcome s.owner (Scope.register ⟨some s.owner, call, registers⟩ left)
        (Scope.register ⟨some s.owner, call, registers⟩ right)) w' := by
  unfold Graph.sumOutcome
  cases hsum : (Scope.register ⟨some s.owner, call, registers⟩ left).add?
      (Scope.register ⟨some s.owner, call, registers⟩ right) with
  | none => exact ⟨_, .stop ⟨.setSum, Action.begin_setSum_of_none hsum⟩⟩
  | some sum =>
    have hyield : (w.graph.fill s sum).yield s = .ok sum := by
      rw [Graph.yield, Graph.cell?_fill _ _ hd, if_pos rfl]
    refine ⟨w.setGraph ((w.graph.fill s sum).leave s.owner),
      .done ⟨.setSum, Action.begin_setSum hd hsum⟩ ?_⟩
    simp only [← hyield]
    exact .finish

/-- An adder reads its two inputs and then writes the sum of their values, or fails for them. -/
theorem Evaluates.of_add (hl : w.graph.logic s.owner = .add) (hn : s.name = "v")
    (hd : w.graph.Declares s) (ha : w.graph.answer? s = none)
    (hg₁ : (w.graph.inputs s.owner).get "v1" = .ok (some t₁))
    (hg₂ : (w.graph.inputs s.owner).get "v2" = .ok (some t₂))
    (h₁ : Evaluates (w.setGraph (w.graph.enter s.owner)) (.read t₁) log₁ (.ok a) w₁)
    (h₂ : Evaluates w₁ (.read t₂) log₂ (.ok b) w₂) :
    ∃ w', Evaluates w (.read s) (s.owner :: (log₁ ++ (log₂ ++ [])))
      (Graph.sumOutcome s.owner a b) w' := by
  have hin₀ : (w.setGraph (w.graph.enter s.owner)).graph.inputs s.owner = w.graph.inputs s.owner :=
    Graph.inputs_enter _ _ _
  have hin₁ : w₁.graph.inputs s.owner = w.graph.inputs s.owner :=
    (h₁.advances.grows.inputs_eq s.owner).trans hin₀
  have hd₂ : w₂.graph.Declares s := by
    have hd₀ : (w.setGraph (w.graph.enter s.owner)).graph.Declares s :=
      (Graph.declares_congr (by rw [Workspace.setGraph, Graph.outputs_enter])).mpr hd
    exact ((h₁.advances.grows.trans h₂.advances.grows).declares_iff).mpr hd₀
  have hread₁ (call : Nat) : Begins (w.setGraph (w.graph.enter s.owner)) s call .empty
      (.demand (.input .self "v1") (some "v1")) false (.ok (.demand t₁ (some s.owner))) :=
    ⟨.input trivial, by rw [Action.begin_input, hin₀, hg₁]⟩
  -- The first read has filled cells only, so the second input is bound as before.
  have hread₂ (call : Nat) (registers : Table Value) : Begins w₁ s call registers
      (.demand (.input .self "v2") (some "v2")) false (.ok (.demand t₂ (some s.owner))) :=
    ⟨.input trivial, by rw [Action.begin_input, hin₁, hg₂]⟩
  obtain ⟨w', hsum⟩ := Evaluates.of_setSum hd₂ (w.graph.calls s.owner + 1)
    ((Table.empty.keep (some "v1") a).keep (some "v2") b) "v1" "v2"
  rw [hn] at hsum
  refine ⟨w', .compute ha ?_⟩
  rw [hl]
  exact .value (hread₁ _) h₁ (.value (hread₂ _ _) h₂ hsum)

end Adder

/-! ## Runs -/

open Machine

variable {past : List Machine} {m : Machine} {d : Demand} {id : NodeId}

/-- The read is about the output of an adder, and the sockets that this is bound to hold values. -/
structure Machine.Adds (m : Machine) (d : Demand) (id : NodeId) (a b : Value) : Prop where
  target : ∃ holding, d.target ⟨none, 0, .empty⟩ m.workspace = .ok (some ⟨id, "v"⟩, holding)
  logic : m.graph.logic id = .add
  unanswered : m.graph.answer? ⟨id, "v"⟩ = none
  left : ∃ t, (m.graph.inputs id).get "v1" = .ok (some t) ∧ m.graph.cell? t = some a
  right : ∃ t, (m.graph.inputs id).get "v2" = .ok (some t) ∧ m.graph.cell? t = some b

/-- Such a read comes to the sum of the two values. -/
theorem Machine.Adds.exists_exec {a b : Value} (hadd : m.Adds d id a b) (h : Run past m)
    (hi : m.idle = true) (into : Option String) :
    ∃ (entry : Entry) (k : Machine),
      entry.result = (StepError.ofGraph (Graph.sumOutcome id a b)).map Reply.value ∧
      (∀ v, Graph.sumOutcome id a b = .ok v → k.graph.cell? ⟨id, "v"⟩ = some v) ∧
      ∃ limit, ∀ more, limit ≤ more → m.exec more (.demand d into) = some (entry, k) := by
  obtain ⟨⟨holding, ht⟩, hl, ha, ⟨t₁, hg₁, hc₁⟩, t₂, hg₂, hc₂⟩ := hadd
  have hanswer {t : Socket} {v : Value} {w : Workspace} (hc : w.graph.cell? t = some v) :
      Evaluates w (.read t) [] (.ok v) w := .answer (by rw [Graph.answer?, hc])
  have hcell (t : Socket) :
      (m.workspace.setGraph (m.graph.enter id)).graph.cell? t = m.graph.cell? t :=
    Graph.cell?_enter _ _ _
  have hload : (m.load (.demand d into)).Demands ⟨id, "v"⟩ holding := demands_of_load hi ht
  have hd : m.graph.Declares ⟨id, "v"⟩ := hload.declares (wired (h.load _ hi))
  obtain ⟨w', he⟩ := Evaluates.of_add hl rfl hd ha hg₁ hg₂ (hanswer ((hcell t₁).trans hc₁))
    (hanswer ((hcell t₂).trans hc₂))
  obtain ⟨entry, k, hentry, -, -, hwork, hexec⟩ := exists_exec_of_evaluates h hi into ht he
  refine ⟨entry, k, hentry, fun v hv => ?_, hexec⟩
  rw [hv] at he
  rw [graph, hwork]
  exact he.cell?_eq

/-- The read of an adder between two integers yields an integer exactly if both of them and their
sum are in the signed range, and then it is their sum. What it yields is in the cell. -/
theorem Run.summed (h : Run past m) (hi : m.idle = true) {a b : Int} (ha : Number.InRange a)
    (hb : Number.InRange b) (hadd : m.Adds d id (.number (.int a ha)) (.number (.int b hb)))
    (into : Option String) :
    ∃ (sum? : Option Number) (entry : Entry) (k : Machine),
      (Number.int a ha).add? (.int b hb) = sum? ∧ Number.Summed a b sum? ∧
      (∀ sum, sum? = some sum → entry.result = .ok (.value (.number sum)) ∧
        k.graph.cell? ⟨id, "v"⟩ = some (.number sum)) ∧
      (sum? = none → ∃ message, entry.result = .error (.graph (.computeFailed id message))) ∧
      ∃ limit, ∀ more, limit ≤ more → m.exec more (.demand d into) = some (entry, k) := by
  obtain ⟨entry, k, hentry, hcell, hexec⟩ := hadd.exists_exec h hi into
  refine ⟨_, entry, k, rfl, Number.add?_summed ha hb, fun sum hsum => ?_, fun hnone => ?_, hexec⟩
  · have ho := Graph.sumOutcome_of_some id hsum
    exact ⟨by rw [hentry, ho]; rfl, hcell _ ho⟩
  · obtain ⟨message, ho⟩ := Graph.sumOutcome_of_none id hnone
    exact ⟨message, by rw [hentry, ho]; rfl⟩

/-- The steps that wire an adder to two constants and read these. -/
def Action.addition (a b : Value) : List Action :=
  [.edit (.create "a" .identifier (.value a)),
    .edit (.create "b" .identifier (.value b)),
    .edit (.create "sum" .identifier .add),
    .edit (.connect (.label "sum") "v1" (.output (.label "a") "v")),
    .edit (.connect (.label "sum") "v2" (.output (.label "b") "v")),
    .demand (.output (.label "a") "v") none,
    .demand (.output (.label "b") "v") none]

/-- The largest signed integer and -1. -/
theorem Run.summed_signed :
    ∃ past m entry k, Run past m ∧ m.idle = true ∧
      m.Adds (.output (.label "sum") "v") ⟨2⟩ (.number (.int 0x7fffffffffffffff (by decide)))
        (.number (.int (-1) (by decide))) ∧
      Number.Summed 0x7fffffffffffffff (-1) (some (.int 0x7ffffffffffffffe (by decide))) ∧
      entry.result = .ok (.value (.number (.int 0x7ffffffffffffffe (by decide)))) ∧
      k.graph.cell? ⟨⟨2⟩, "v"⟩ = some (.number (.int 0x7ffffffffffffffe (by decide))) ∧
      ∃ limit, ∀ more, limit ≤ more →
        m.exec more (.demand (.output (.label "sum") "v") none) = some (entry, k) := by
  have he : Machine.start.execAll 100
      (Action.addition (.number (.int 0x7fffffffffffffff (by decide)))
        (.number (.int (-1) (by decide)))) = some (_, _) := rfl
  obtain ⟨m, ⟨⟨past, h⟩, hi⟩, hadd⟩ : ∃ m, ((∃ past, Run past m) ∧ m.idle = true) ∧
      m.Adds (.output (.label "sum") "v") ⟨2⟩ (.number (.int 0x7fffffffffffffff (by decide)))
        (.number (.int (-1) (by decide))) :=
    ⟨_, Run.start.of_execAll rfl he, ⟨some ⟨2⟩, rfl⟩, rfl, rfl, ⟨⟨⟨0⟩, "v"⟩, rfl, rfl⟩,
      ⟨⟨1⟩, "v"⟩, rfl, rfl⟩
  obtain ⟨sum?, entry, k, -, hsum, hsome, -, hexec⟩ := h.summed hi (by decide) (by decide) hadd none
  obtain rfl : sum? = some (.int 0x7ffffffffffffffe (by decide)) :=
    (hsum.int_iff _ _).mpr ⟨by decide, by decide⟩
  obtain ⟨hresult, hcell⟩ := hsome _ rfl
  exact ⟨past, m, entry, k, h, hi, hadd, hsum, hresult, hcell, hexec⟩

/-- The least integer above the signed range and -1: the sum is signed, and what the adder yields is
a float. -/
theorem Run.not_summed_of_unsigned :
    ∃ past m entry k, Run past m ∧ m.idle = true ∧
      m.Adds (.output (.label "sum") "v") ⟨2⟩ (.number (.int 0x8000000000000000 (by decide)))
        (.number (.int (-1) (by decide))) ∧
      Number.Signed (0x8000000000000000 + -1) ∧
      (∃ x, entry.result = .ok (.value (.number (.float x)))) ∧
      ∃ limit, ∀ more, limit ≤ more →
        m.exec more (.demand (.output (.label "sum") "v") none) = some (entry, k) := by
  have he : Machine.start.execAll 100
      (Action.addition (.number (.int 0x8000000000000000 (by decide)))
        (.number (.int (-1) (by decide)))) = some (_, _) := rfl
  obtain ⟨m, ⟨⟨past, h⟩, hi⟩, hadd⟩ : ∃ m, ((∃ past, Run past m) ∧ m.idle = true) ∧
      m.Adds (.output (.label "sum") "v") ⟨2⟩ (.number (.int 0x8000000000000000 (by decide)))
        (.number (.int (-1) (by decide))) :=
    ⟨_, Run.start.of_execAll rfl he, ⟨some ⟨2⟩, rfl⟩, rfl, rfl, ⟨⟨⟨0⟩, "v"⟩, rfl, rfl⟩,
      ⟨⟨1⟩, "v"⟩, rfl, rfl⟩
  obtain ⟨entry, k, hentry, -, hexec⟩ := hadd.exists_exec h hi none
  have hsum : (Number.int 0x8000000000000000 (by decide)).add? (.int (-1) (by decide)) =
      some (.float (Number.nearest 0x8000000000000000 + Number.nearest (-1))) :=
    (Number.add?_of_not_signed (by decide)).trans rfl
  have hresult : entry.result = .ok (.value (.number (.float
      (Number.nearest 0x8000000000000000 + Number.nearest (-1))))) := by
    rw [hentry, Graph.sumOutcome_of_some _ hsum]
    rfl
  exact ⟨past, m, entry, k, h, hi, hadd, by decide, ⟨_, hresult⟩, hexec⟩

end PullGraph

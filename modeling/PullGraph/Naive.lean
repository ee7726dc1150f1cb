import PullGraph.Lifetime
import PullGraph.Step

/-!
# Evaluation without a cache

What a socket is worth, worked out from the wiring alone: every read of an unset socket computes its
owner anew, and nothing is written down.

* `Logic.Strict`: the kinds of nodes that read some of their inputs and then write their only output.
* `Graph.follow` is what such a node writes, given the outcomes of its reads.
* `Graph.naive` is the outcome of the read of a socket. The nodes that are being evaluated form a
  path; a node that is met again on it is a cycle.
* `Workspace.naiveRead`: the result of a read that a program makes.
-/

namespace PullGraph

/-! ## Strict kinds -/

/-- A source that needs nothing but some registers. -/
def Source.From (filled : List String) : Source → Prop
  | .constant _ => True
  | .register name => name ∈ filled
  | .registers names => ∀ name ∈ names, name ∈ filled
  | .callNumber => False

/-- Reads of some of the inputs, none of them an attempt, and then one write of an output from the
registers that are filled by then. -/
inductive ReadsThenWrites (inputs : List String) (output : String) :
    List String → List Instr → Prop
  | read {filled : List String} {input : String} {into : Option String} {rest : List Instr} :
      input ∈ inputs → ReadsThenWrites inputs output (into.toList ++ filled) rest →
      ReadsThenWrites inputs output filled (.act (.demand (.input .self input) into) false :: rest)
  | write {filled : List String} {source : Source} : source.From filled →
      ReadsThenWrites inputs output filled [.act (.edit (.setOutput .self output source)) false]

/-- A kind that reads inputs and then writes its only output. -/
inductive Logic.Strict : Logic → Prop
  | value (v : Value) : Strict (.value v)
  | add : Strict .add
  | script {inputs : List String} {output typeName : String} {steps : List Instr} :
      ReadsThenWrites inputs output [] steps →
      Strict (.script inputs [output] typeName [steps])

namespace Graph

variable (g : Graph)

/-! ## Evaluation -/

/-- What the owner of a socket writes when it follows the steps, or why it gives up. `read` tells the
outcome of reading a socket. -/
def follow (read : Socket → Except GraphError Value) (s : Socket) :
    Table Value → List Instr → Except GraphError Value
  | registers, .act (.demand (.input .self input) into) _ :: rest => do
    match ← (g.inputs s.owner).get input with
    | none => throw (.unconnectedInput s.owner input)
    | some t =>
      let v ← read t
      follow read s ((into.map (registers.insert · v)).getD registers) rest
  | registers, .act (.edit (.setOutput .self _ source)) _ :: _ =>
    return Scope.source ⟨some s.owner, 1, registers⟩ source
  | registers, .act (.edit (.setSum .self _ left right)) _ :: _ =>
    let a := Scope.register ⟨some s.owner, 1, registers⟩ left
    let b := Scope.register ⟨some s.owner, 1, registers⟩ right
    match a.add? b with
    | some sum => return sum
    | none => throw (.computeFailed s.owner ("cannot add " ++ a.text ++ " and " ++ b.text))
  | _, _ => throw (.invariantViolation s)

section Follow

variable {g} {read : Socket → Except GraphError Value} {s t : Socket} {registers : Table Value}
  {input : String} {into : Option String} {attempt : Bool} {rest : List Instr}

theorem follow_read_of_error {e : GraphError} (h : (g.inputs s.owner).get input = .error e) :
    g.follow read s registers (.act (.demand (.input .self input) into) attempt :: rest) =
      .error e := by
  rw [follow, h]
  rfl

theorem follow_read_of_none (h : (g.inputs s.owner).get input = .ok none) :
    g.follow read s registers (.act (.demand (.input .self input) into) attempt :: rest) =
      .error (.unconnectedInput s.owner input) := by
  rw [follow, h]
  rfl

theorem follow_read_of_some (h : (g.inputs s.owner).get input = .ok (some t)) :
    g.follow read s registers (.act (.demand (.input .self input) into) attempt :: rest) =
      (read t).bind fun v =>
        g.follow read s ((into.map (registers.insert · v)).getD registers) rest := by
  rw [follow, h]
  rfl

variable {output left right : String} {call : Nat}

theorem follow_write (call : Nat) {source : Source} (h : source ≠ .callNumber) :
    g.follow read s registers (.act (.edit (.setOutput .self output source)) attempt :: rest) =
      .ok (Scope.source ⟨some s.owner, call, registers⟩ source) := by
  cases source with
  | callNumber => exact absurd rfl h
  | _ => rfl

theorem follow_sum_of_some {sum : Value}
    (h : (Scope.register ⟨some s.owner, call, registers⟩ left).add?
      (Scope.register ⟨some s.owner, call, registers⟩ right) = some sum) :
    g.follow read s registers (.act (.edit (.setSum .self output left right)) attempt :: rest) =
      .ok sum := by
  have h' : (Scope.register ⟨some s.owner, 1, registers⟩ left).add?
      (Scope.register ⟨some s.owner, 1, registers⟩ right) = some sum := h
  simp only [follow, h']
  rfl

theorem follow_sum_of_none
    (h : (Scope.register ⟨some s.owner, call, registers⟩ left).add?
      (Scope.register ⟨some s.owner, call, registers⟩ right) = none) :
    g.follow read s registers (.act (.edit (.setSum .self output left right)) attempt :: rest) =
      .error (.computeFailed s.owner
        ("cannot add " ++ (Scope.register ⟨some s.owner, call, registers⟩ left).text ++ " and " ++
          (Scope.register ⟨some s.owner, call, registers⟩ right).text)) := by
  have h' : (Scope.register ⟨some s.owner, 1, registers⟩ left).add?
      (Scope.register ⟨some s.owner, 1, registers⟩ right) = none := h
  simp only [follow, h']
  rfl

end Follow

/-- A node that is alive and joins the path leaves fewer nodes off it. -/
theorem length_off_path_lt {path : List NodeId} {id : NodeId} (ha : g.alive id = true)
    (hp : id ∉ path) :
    (g.living.filter (· ∉ id :: path)).length < (g.living.filter (· ∉ path)).length := by
  have h : g.living.filter (· ∉ id :: path) = (g.living.filter (· ∉ path)).filter (· ≠ id) := by
    simp [List.filter_filter]
  rw [h]
  exact List.length_filter_lt_length_iff_exists.mpr
    ⟨id, List.mem_filter.mpr ⟨g.mem_living.mpr ha, by simpa using hp⟩, by simp⟩

/-- The outcome of the read of a socket while the nodes of the path are being evaluated. -/
def naive (path : List NodeId) (s : Socket) : Except GraphError Value :=
  match g.cell? s with
  | some v => .ok v
  | none =>
    if _ : g.alive s.owner = true then
      if _ : s.owner ∈ path then .error (.cycleDetected s)
      else
        g.follow (fun t => naive (s.owner :: path) t) s .empty ((g.logic s.owner).program 1)
    else .error (.ownerDropped s.name)
termination_by (g.living.filter (· ∉ path)).length
decreasing_by exact g.length_off_path_lt ‹_› ‹_›

variable {g} {path : List NodeId} {s : Socket}

theorem naive_of_cell {v : Value} (h : g.cell? s = some v) : g.naive path s = .ok v := by
  rw [naive, h]

theorem naive_of_dead (hc : g.cell? s = none) (ha : g.alive s.owner = false) :
    g.naive path s = .error (.ownerDropped s.name) := by
  rw [naive, hc]
  simp [ha]

theorem naive_of_mem (hc : g.cell? s = none) (ha : g.alive s.owner = true) (hp : s.owner ∈ path) :
    g.naive path s = .error (.cycleDetected s) := by
  rw [naive, hc]
  simp [ha, hp]

theorem naive_of_not_mem (hc : g.cell? s = none) (ha : g.alive s.owner = true)
    (hp : s.owner ∉ path) :
    g.naive path s =
      g.follow (g.naive (s.owner :: path)) s .empty ((g.logic s.owner).program 1) := by
  rw [naive, hc]
  simp only [ha, hp, dif_pos, dif_neg, not_false_eq_true]

end Graph

/-- The result of a read at the top level, without a cache. -/
def Workspace.naiveRead (w : Workspace) (d : Demand) : Result :=
  match d.target ⟨none, 0, .empty⟩ w with
  | .error e => .error e
  | .ok (none, _) => .ok .nothing
  | .ok (some s, _) => (StepError.ofGraph (w.graph.naive [] s)).map .value

namespace Workspace

variable {w : Workspace} {d : Demand}

theorem naiveRead_of_error {e : StepError} (h : d.target ⟨none, 0, .empty⟩ w = .error e) :
    w.naiveRead d = .error e := by
  rw [naiveRead, h]

theorem naiveRead_of_none {held : Option NodeId}
    (h : d.target ⟨none, 0, .empty⟩ w = .ok (none, held)) : w.naiveRead d = .ok .nothing := by
  rw [naiveRead, h]

theorem naiveRead_of_some {s : Socket} {held : Option NodeId}
    (h : d.target ⟨none, 0, .empty⟩ w = .ok (some s, held)) :
    w.naiveRead d = (StepError.ofGraph (w.graph.naive [] s)).map .value := by
  rw [naiveRead, h]

end Workspace

end PullGraph

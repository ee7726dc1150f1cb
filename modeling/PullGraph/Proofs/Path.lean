import Mathlib.Logic.Relation
import PullGraph.Naive
import PullGraph.Proofs.Effect

/-!
# What does not depend on the path

An evaluation can fail because of the path that it is under, and then it fails for lack of a value
somewhere in a cycle. A value never depends on the path.

* `Graph.reads`: the sockets that steps read. `Graph.Needs` is an edge of the dependencies that an
  evaluation follows.
* `Graph.acc_of_naive`: from a socket that has a value no cycle can be reached.
* `Graph.naive_of_subset`: a value stays the same under a part of the path.
* `Graph.naive_of_needed`: it stays the same under a path by which the socket is needed.
-/

namespace PullGraph

namespace Graph

variable (g : Graph)

/-- The sockets that the steps of a node read before they write. -/
def reads (id : NodeId) : List Instr → List Socket
  | .act (.demand (.input .self input) _) _ :: rest =>
    (match (g.inputs id).get input with
      | .ok (some s) => [s]
      | _ => []) ++ reads id rest
  | _ => []

/-- A compute of the first node would have to compute the second one. -/
def Needs (id other : NodeId) : Prop :=
  ∃ s ∈ g.reads id ((g.logic id).program 1), g.cell? s = none ∧ s.owner = other

variable {g} {read read' : Socket → Except GraphError Value} {s t : Socket} {v : Value}
  {registers : Table Value} {steps : List Instr} {path : List NodeId}

theorem follow_read_eq_ok {input : String} {into : Option String} (attempt : Bool)
    {rest : List Instr} :
    g.follow read s registers (.act (.demand (.input .self input) into) attempt :: rest) = .ok v ↔
      ∃ t u, (g.inputs s.owner).get input = .ok (some t) ∧ read t = .ok u ∧
        g.follow read s ((into.map (registers.insert · u)).getD registers) rest = .ok v := by
  constructor
  · intro h
    cases hb : (g.inputs s.owner).get input with
    | error e => rw [follow_read_of_error hb] at h; cases h
    | ok bound =>
      cases bound with
      | none => rw [follow_read_of_none hb] at h; cases h
      | some t =>
        rw [follow_read_of_some hb] at h
        obtain ⟨u, hu, h⟩ := bind_eq_ok.mp h
        exact ⟨t, u, rfl, hu, h⟩
  · rintro ⟨t, u, hb, hu, h⟩
    rw [follow_read_of_some hb]
    exact bind_eq_ok.mpr ⟨u, hu, h⟩

theorem reads_read {input : String} {into : Option String} {attempt : Bool} {rest : List Instr}
    (h : (g.inputs s.owner).get input = .ok (some t)) :
    g.reads s.owner (.act (.demand (.input .self input) into) attempt :: rest) =
      t :: g.reads s.owner rest := by
  rw [reads, h]
  rfl

/-- Every socket that is read on the way to a value has a value. -/
theorem exists_of_follow (h : g.follow read s registers steps = .ok v) :
    ∀ t ∈ g.reads s.owner steps, ∃ u, read t = .ok u := by
  fun_induction follow g read s registers steps with
  | case1 registers input into attempt rest ih =>
    obtain ⟨t, u, hb, hu, h⟩ := (follow_read_eq_ok attempt).mp h
    rw [reads_read hb]
    intro t' ht'
    rcases List.mem_cons.mp ht' with rfl | ht'
    · exact ⟨u, hu⟩
    · exact ih u h t' ht'
  | _ => simp [reads]

/-- A value is the same whatever else the reads come to. -/
theorem follow_mono (h : g.follow read s registers steps = .ok v)
    (hr : ∀ t ∈ g.reads s.owner steps, ∀ u, read t = .ok u → read' t = .ok u) :
    g.follow read' s registers steps = .ok v := by
  fun_induction follow g read s registers steps with
  | case1 registers input into attempt rest ih =>
    obtain ⟨t, u, hb, hu, h⟩ := (follow_read_eq_ok attempt).mp h
    rw [reads_read hb] at hr
    refine (follow_read_eq_ok attempt).mpr ⟨t, u, hb, hr t List.mem_cons_self u hu, ?_⟩
    exact ih u h fun t' ht' => hr t' (List.mem_cons_of_mem _ ht')
  | case2 => rw [follow]; exact h
  | case3 registers name left right attempt rest a b sum hsum =>
    simp only [follow]
    rw [hsum]
    exact h
  | case4 | case5 => cases h

theorem follow_of_naive (h : g.naive path s = .ok v) (hc : g.cell? s = none) :
    g.alive s.owner = true ∧ s.owner ∉ path ∧
      g.follow (g.naive (s.owner :: path)) s .empty ((g.logic s.owner).program 1) = .ok v := by
  cases ha : g.alive s.owner with
  | false => rw [naive_of_dead hc ha] at h; cases h
  | true =>
    by_cases hp : s.owner ∈ path
    · rw [naive_of_mem hc ha hp] at h; cases h
    · rw [naive_of_not_mem hc ha hp] at h
      exact ⟨rfl, hp, h⟩

/-- No path leads from the owner of a socket with a value into a cycle. -/
theorem acc_of_naive (h : g.naive path s = .ok v) (hc : g.cell? s = none) :
    Acc (fun other id => g.Needs id other) s.owner := by
  induction path, s using naive.induct g generalizing v with
  | case1 path s u hs => rw [hs] at hc; cases hc
  | case2 path s hs ha hp => exact absurd hp (follow_of_naive h hc).2.1
  | case4 path s hs ha => exact absurd (follow_of_naive h hc).1 ha
  | case3 path s hs ha hp ih =>
    obtain ⟨-, -, hf⟩ := follow_of_naive h hc
    refine Acc.intro _ fun other hn => ?_
    obtain ⟨t, ht, htc, rfl⟩ := hn
    obtain ⟨u, hu⟩ := exists_of_follow hf t ht
    exact ih t hu htc

/-- A value does not depend on how much of the path there is. -/
theorem naive_of_subset {less : List NodeId} (h : g.naive path s = .ok v) (hs : less ⊆ path) :
    g.naive less s = .ok v := by
  induction path, s using naive.induct g generalizing v less with
  | case1 path s u hc =>
    rw [naive_of_cell hc] at h ⊢
    exact h
  | case2 path s hc ha hp => exact absurd hp (follow_of_naive h hc).2.1
  | case4 path s hc ha => exact absurd (follow_of_naive h hc).1 ha
  | case3 path s hc ha hp ih =>
    obtain ⟨-, -, hf⟩ := follow_of_naive h hc
    rw [naive_of_not_mem hc ha fun hl => hp (hs hl)]
    refine follow_mono hf fun t _ u hu => ih t hu ?_
    exact List.cons_subset_cons _ hs

/-- From where there is an end to all ways no way leads back. -/
theorem not_transGen_of_acc {r : NodeId → NodeId → Prop} {id : NodeId}
    (h : Acc (fun other id => r id other) id) : ¬ Relation.TransGen r id id := by
  induction h with
  | intro id _ ih =>
    intro hc
    obtain ⟨other, hn, hr⟩ := Relation.TransGen.head'_iff.mp hc
    exact ih other hn (Relation.TransGen.tail' hr hn)

/-- A value does not depend on a path by which it is needed: what it needs is not on that path. -/
theorem naive_of_needed (h : g.naive [] s = .ok v)
    (hp : ∀ id ∈ path, Relation.TransGen g.Needs id s.owner) : g.naive path s = .ok v := by
  cases hc : g.cell? s with
  | some u =>
    rw [naive_of_cell hc] at h ⊢
    exact h
  | none =>
    have hacc := acc_of_naive h hc
    generalize e : s.owner = id at hacc
    induction hacc generalizing s path v with
    | intro id hlow ih =>
      subst e
      obtain ⟨ha, -, hf⟩ := follow_of_naive h hc
      -- Everything on the path needs the owner, and the owner does not need itself.
      have hn : s.owner ∉ path := fun hs => not_transGen_of_acc (.intro _ hlow) (hp _ hs)
      rw [naive_of_not_mem hc ha hn]
      refine follow_mono hf fun t ht u hu => ?_
      cases htc : g.cell? t with
      | some w =>
        rw [naive_of_cell htc] at hu ⊢
        exact hu
      | none =>
        have hneeds : g.Needs s.owner t.owner := ⟨t, ht, htc, rfl⟩
        refine ih t.owner hneeds (naive_of_subset hu (List.nil_subset _)) (fun id hid => ?_) htc rfl
        rcases List.mem_cons.mp hid with rfl | hid
        · exact .single hneeds
        · exact .tail (hp id hid) hneeds

end Graph

end PullGraph

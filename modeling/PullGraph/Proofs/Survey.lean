import Mathlib.Data.List.Pairwise
import PullGraph.Proofs.Binding
import PullGraph.Proofs.Cell
import PullGraph.Proofs.Walk

/-!
# What a validation leaves out, and what it says twice

A validation visits each node that the root depends on once, and so it says what there is to say
about an input once.

* `Graph.visit_of_le`: a walk that is deep enough is the same as any deeper one.
* `Walk.visits`, `Walk.about`: how often a node was visited, and the inputs of it that the issues are
  about.
* `Graph.Tidy` is the invariant: a marked node was visited once, one without a mark not at all, and
  when the walk is done with a node the issues about it follow the order of its inputs.
* `Graph.visit_tidy`: a visit keeps the invariant, and says nothing about nodes that had a mark.
* `Run.cycles_iff`: there is an issue about a cycle exactly if there is a cycle, and it lies on one.
* `Run.surveyed`: every node once, every open input once, and nothing else.
-/

namespace PullGraph

open Relation

/-- The input that the issue is about. -/
def Issue.input : Issue → String
  | .cycle _ input _ => input
  | .unconnected _ input => input
  | .detached _ input _ => input

/-- What is said once about each input of each node is said once. -/
theorem Issue.nodup_of_about {issues : List Issue}
    (h : ∀ id, ((issues.filter (·.node = id)).map (·.input)).Nodup) :
    (issues.map fun issue => (issue.node, issue.input)).Nodup := by
  induction issues with
  | nil => exact List.nodup_nil
  | cons issue issues ih =>
    refine List.nodup_cons.mpr ⟨fun hm => ?_, ih fun id => ?_⟩
    · obtain ⟨other, ho, e⟩ := List.mem_map.mp hm
      rw [Prod.mk.injEq] at e
      have hnd := h issue.node
      rw [List.filter_cons_of_pos (by simp), List.map_cons] at hnd
      refine (List.nodup_cons.mp hnd).1 (List.mem_map.mpr ⟨other, ?_, e.2⟩)
      exact List.mem_filter.mpr ⟨ho, by simp [e.1]⟩
    · exact (h id).sublist (((List.sublist_cons_self issue issues).filter _).map _)

namespace Graph

variable {g : Graph} {walk : Walk} {id root : NodeId}

/-! ## Deeper walks -/

theorem look_congr {visit visit' : NodeId → Walk → Walk} {slot : Slot}
    (h : ∀ s feeder, slot.binding = some ⟨s, some feeder⟩ → walk.mark? feeder = none →
      visit feeder walk = visit' feeder walk) :
    g.look visit id walk slot = g.look visit' id walk slot := by
  unfold look
  split
  · rfl
  · rfl
  · next s feeder hb =>
    split
    · rfl
    · rfl
    · next hm => exact h s feeder hb hm

/-- A walk that is deep enough for the nodes without a mark gets no further by being deeper. -/
theorem visit_of_le (hb : ∀ id other, g.Binds id other → g.alive other = true) {depth more : Nat}
    (ha : g.alive id = true) (hm : walk.mark? id = none) (hd : (g.blank walk).length ≤ depth)
    (hle : depth ≤ more) : g.visit more id walk = g.visit depth id walk := by
  induction depth generalizing more id walk with
  | zero =>
    have hpos := List.length_pos_of_mem (mem_blank ha hm)
    omega
  | succ depth ih =>
    obtain ⟨more, rfl⟩ : ∃ k, more = k + 1 := ⟨more - 1, by omega⟩
    -- A visit marks its node before it looks on, so one level less is deep enough for the rest.
    have hfold (slots : List Slot) (hs : ∀ slot ∈ slots, slot ∈ (g.inputs id).slots) (walk : Walk)
        (hd : (g.blank walk).length ≤ depth) :
        slots.foldl (g.look (g.visit more) id) walk = slots.foldl (g.look (g.visit depth) id) walk := by
      induction slots generalizing walk with
      | nil => rfl
      | cons slot slots ihs =>
        have hlook : g.look (g.visit more) id walk slot = g.look (g.visit depth) id walk slot :=
          look_congr fun s feeder hbind hf => ih
            (hb _ _ (binds_of_slot ha (hs slot List.mem_cons_self) hbind)) hf hd (by omega)
        have he : walk.Extends (g.look (g.visit depth) id walk slot) :=
          extends_look (fun _ _ => extends_visit depth) id walk slot
        rw [List.foldl_cons, List.foldl_cons, hlook]
        exact ihs (fun s h => hs s (List.mem_cons_of_mem _ h)) _
          (Nat.le_trans (length_blank_le he) hd)
    have hlt := length_blank_mark_lt ha hm .visiting
    rw [visit, visit, hfold _ (fun _ h => h) _ (by omega)]

end Graph

/-! ## Visits and issues of one node -/

namespace Walk

variable (walk : Walk) (id : NodeId)

/-- How often the walk has entered a node. -/
def visits : Nat := walk.marks.count (id, .visiting)

/-- The inputs of a node that there are issues about, in the order of the issues. -/
def about : List String := (walk.issues.filter (·.node = id)).map (·.input)

variable {walk id} {other : NodeId} {m : Mark} {issue : Issue}

@[simp] theorem about_mark : (walk.mark other m).about id = walk.about id := rfl

theorem visits_mark_self : (walk.mark id .visiting).visits id = walk.visits id + 1 :=
  List.count_cons_self

theorem visits_mark_of_ne (h : (other, m) ≠ (id, .visiting)) :
    (walk.mark other m).visits id = walk.visits id :=
  List.count_cons_of_ne h

theorem about_report_self :
    (walk.report issue).about issue.node = walk.about issue.node ++ [issue.input] := by
  simp [about, report]

theorem about_report_of_ne (h : issue.node ≠ id) : (walk.report issue).about id = walk.about id := by
  simp [about, report, h]

end Walk

namespace Graph

variable (g : Graph)

/-- Each node has been visited at most once, and each of its inputs has been spoken about at most
once. -/
structure Tidy (root : NodeId) (walk : Walk) : Prop where
  /-- Nothing is known about a node before it is visited. -/
  blank : ∀ id, walk.mark? id = none → walk.visits id = 0 ∧ walk.about id = []
  /-- A node with a mark was visited once, and the root depends on it. -/
  marked : ∀ id, (walk.mark? id).isSome = true → walk.visits id = 1 ∧ ReflTransGen g.Binds root id
  /-- When the walk is done with a node, the issues about it follow its inputs. -/
  order : ∀ id, walk.mark? id = some .done → (walk.about id).Sublist (g.inputs id).names

variable {g} {walk walk' : Walk} {id root : NodeId}

theorem Tidy.start (root : NodeId) : g.Tidy root .start :=
  ⟨fun _ _ => ⟨rfl, rfl⟩, fun _ h => (Bool.false_ne_true h).elim, fun _ h => by cases h⟩

theorem Tidy.report (h : g.Tidy root walk) {issue : Issue}
    (hi : walk.mark? issue.node = some .visiting) : g.Tidy root (walk.report issue) := by
  have hne (k : NodeId) (hk : walk.mark? k ≠ some .visiting) :
      (walk.report issue).about k = walk.about k :=
    Walk.about_report_of_ne fun e => hk (e ▸ hi)
  refine ⟨fun k hk => ?_, h.marked, fun k hk => ?_⟩
  · rw [Walk.mark?_report] at hk
    rw [hne k (by simp [hk])]
    exact h.blank k hk
  · rw [Walk.mark?_report] at hk
    rw [hne k (by simp [hk])]
    exact h.order k hk

theorem Tidy.mark_visiting (h : g.Tidy root walk) (hm : walk.mark? id = none)
    (hr : ReflTransGen g.Binds root id) : g.Tidy root (walk.mark id .visiting) := by
  have hne {k : NodeId} (hk : k ≠ id) : (walk.mark id .visiting).visits k = walk.visits k :=
    Walk.visits_mark_of_ne fun e => hk (congrArg Prod.fst e).symm
  refine ⟨fun k hk => ?_, fun k hk => ?_, fun k hk => ?_⟩
  all_goals rw [Walk.mark?_mark] at hk; split at hk
  · cases hk
  · next hki => exact ⟨(hne hki).trans (h.blank k hk).1, (h.blank k hk).2⟩
  · next e =>
    subst e
    exact ⟨by rw [Walk.visits_mark_self, (h.blank k hm).1], hr⟩
  · next hki => exact ⟨(hne hki).trans (h.marked k hk).1, (h.marked k hk).2⟩
  · cases hk
  · exact h.order k hk

theorem Tidy.mark_done (h : g.Tidy root walk) (hm : walk.mark? id = some .visiting)
    (ho : (walk.about id).Sublist (g.inputs id).names) : g.Tidy root (walk.mark id .done) := by
  have hvisits (k : NodeId) : (walk.mark id .done).visits k = walk.visits k :=
    Walk.visits_mark_of_ne fun e => by cases e
  refine ⟨fun k hk => ?_, fun k hk => ?_, fun k hk => ?_⟩
  all_goals rw [Walk.mark?_mark] at hk; split at hk
  · cases hk
  · exact ⟨(hvisits k).trans (h.blank k hk).1, (h.blank k hk).2⟩
  · next e =>
    subst e
    exact ⟨(hvisits k).trans (h.marked k (by rw [hm]; rfl)).1, (h.marked k (by rw [hm]; rfl)).2⟩
  · exact ⟨(hvisits k).trans (h.marked k hk).1, (h.marked k hk).2⟩
  · next e =>
    subst e
    exact ho
  · exact h.order k hk

/-- A visit of a node without a mark that keeps the invariant, and that says nothing about the nodes
that have one. -/
def Tidies (g : Graph) (root : NodeId) (visit : NodeId → Walk → Walk) : Prop :=
  ∀ id walk, walk.mark? id = none → ReflTransGen g.Binds root id → g.Tidy root walk →
    g.Tidy root (visit id walk) ∧
      ∀ k, (walk.mark? k).isSome = true → (visit id walk).about k = walk.about k

section Look

variable {depth : Nat} (hv : g.Tidies root (g.visit depth))

include hv

/-- The look at one input says at most one thing, about that input. -/
theorem look_tidy {slot : Slot} (ha : g.alive id = true) (hs : slot ∈ (g.inputs id).slots)
    (hm : walk.mark? id = some .visiting) (ht : g.Tidy root walk) :
    g.Tidy root (g.look (g.visit depth) id walk slot) ∧
      (∀ k, (walk.mark? k).isSome = true → k ≠ id →
        (g.look (g.visit depth) id walk slot).about k = walk.about k) ∧
      ∃ said, (g.look (g.visit depth) id walk slot).about id = walk.about id ++ said ∧
        said.Sublist [slot.name] := by
  have hsilent : ∃ said, walk.about id = walk.about id ++ said ∧ said.Sublist [slot.name] :=
    ⟨[], (List.append_nil _).symm, List.nil_sublist _⟩
  have hreport {issue : Issue} (hn : issue.node = id) (hi : issue.input = slot.name) :
      g.Tidy root (walk.report issue) ∧
        (∀ k, (walk.mark? k).isSome = true → k ≠ id →
          (walk.report issue).about k = walk.about k) ∧
        ∃ said, (walk.report issue).about id = walk.about id ++ said ∧ said.Sublist [slot.name] := by
    subst hn
    refine ⟨ht.report hm, fun k _ hk => Walk.about_report_of_ne hk.symm, [issue.input],
      Walk.about_report_self, ?_⟩
    rw [hi]
  -- An open input, a binding to a dead owner, and a binding that leads on: in the last case it is
  -- the visit that speaks, and only about nodes that had no mark.
  rcases hbind : slot.binding with _ | ⟨s, _ | feeder⟩
  · simp only [look, hbind]
    exact hreport rfl rfl
  · simp only [look, hbind]
    split
    · exact ⟨ht, fun _ _ _ => rfl, hsilent⟩
    · exact hreport rfl rfl
  · simp only [look, hbind]
    split
    · exact hreport rfl rfl
    · exact ⟨ht, fun _ _ _ => rfl, hsilent⟩
    · next hf =>
      have hid : (walk.mark? id).isSome = true := by rw [hm]; rfl
      have hbinds := binds_of_slot ha hs hbind
      obtain ⟨ht', hsame⟩ := hv feeder walk hf ((ht.marked id hid).2.tail hbinds) ht
      refine ⟨ht', fun k hk _ => hsame k hk, ?_⟩
      rw [hsame id hid]
      exact hsilent

/-- The looks at some inputs speak about these inputs in their order. -/
theorem foldl_look_tidy {slots : List Slot} (ha : g.alive id = true)
    (hs : ∀ slot ∈ slots, slot ∈ (g.inputs id).slots) (hm : walk.mark? id = some .visiting)
    (ht : g.Tidy root walk) :
    g.Tidy root (slots.foldl (g.look (g.visit depth) id) walk) ∧
      (∀ k, (walk.mark? k).isSome = true → k ≠ id →
        (slots.foldl (g.look (g.visit depth) id) walk).about k = walk.about k) ∧
      ∃ said, (slots.foldl (g.look (g.visit depth) id) walk).about id = walk.about id ++ said ∧
        said.Sublist (slots.map (·.name)) := by
  induction slots generalizing walk with
  | nil => exact ⟨ht, fun _ _ _ => rfl, [], (List.append_nil _).symm, List.Sublist.refl _⟩
  | cons slot slots ih =>
    obtain ⟨ht', hsame, said, hsaid, hsub⟩ := look_tidy hv ha (hs slot List.mem_cons_self) hm ht
    have he : walk.Extends (g.look (g.visit depth) id walk slot) :=
      extends_look (fun _ _ => extends_visit depth) id walk slot
    obtain ⟨ht'', hsame', said', hsaid', hsub'⟩ :=
      ih (fun s h => hs s (List.mem_cons_of_mem _ h)) ((he.visiting id).mpr hm) ht'
    refine ⟨ht'', fun k hk hne => ?_, said ++ said', ?_, hsub.append hsub'⟩
    · exact (hsame' k (he.isSome_mark? hk) hne).trans (hsame k hk hne)
    · rw [List.foldl_cons, hsaid', hsaid, List.append_assoc]

end Look

section Validate

variable (hb : ∀ id other, g.Binds id other → g.alive other = true) (ha : g.alive root = true)

include hb ha

/-- A visit keeps the invariant, however deep it goes. -/
theorem visit_tidy (depth : Nat) : g.Tidies root (g.visit depth) := by
  induction depth with
  | zero => exact fun id walk _ _ ht => ⟨ht, fun _ _ => rfl⟩
  | succ depth ih =>
    intro id walk hm hr ht
    obtain ⟨ht', hsame, said, hsaid, hsub⟩ := foldl_look_tidy ih (alive_of_reflTransGen hb ha hr)
      (fun _ h => h) Walk.mark?_mark_self (ht.mark_visiting hm hr)
    have he : (walk.mark id .visiting).Extends
        ((g.inputs id).slots.foldl (g.look (g.visit depth) id) (walk.mark id .visiting)) :=
      extends_foldl_look (fun _ _ => extends_visit depth) id _ _
    rw [Walk.about_mark, (ht.blank id hm).2, List.nil_append] at hsaid
    refine ⟨ht'.mark_done ((he.visiting id).mpr Walk.mark?_mark_self) (hsaid ▸ hsub),
      fun k hk => ?_⟩
    have hne : k ≠ id := fun e => by simp [e, hm] at hk
    exact hsame k (by rwa [Walk.mark?_mark, if_neg hne]) hne

theorem tidy_validate : g.Tidy root (g.visit g.nodes.size root .start) :=
  (visit_tidy hb ha _ root .start rfl .refl (.start root)).1

theorem isSome_mark?_iff (id : NodeId) :
    ((g.visit g.nodes.size root .start).mark? id).isSome = true ↔ ReflTransGen g.Binds root id :=
  ⟨fun hm => ((tidy_validate hb ha).marked id hm).2,
    fun hr => by rw [mark?_of_reaches hb ha hr]; rfl⟩

theorem blank_of_not_reaches (hr : ¬ ReflTransGen g.Binds root id) :
    (g.visit g.nodes.size root .start).visits id = 0 ∧
      (g.visit g.nodes.size root .start).about id = [] := by
  have hm := mt (isSome_mark?_iff hb ha id).mp hr
  exact (tidy_validate hb ha).blank id (by simpa using hm)

/-- The issues about a node follow the order of its inputs. -/
theorem about_sublist (id : NodeId) :
    ((g.visit g.nodes.size root .start).about id).Sublist (g.inputs id).names := by
  by_cases hr : ReflTransGen g.Binds root id
  · exact (tidy_validate hb ha).order id (mark?_of_reaches hb ha hr)
  · rw [(blank_of_not_reaches hb ha hr).2]
    exact List.nil_sublist _

/-- There is at most one issue about each input. -/
theorem nodup_issues (hnd : ∀ id, ReflTransGen g.Binds root id → (g.inputs id).names.Nodup) :
    ((g.validate root).issues.map fun issue => (issue.node, issue.input)).Nodup := by
  refine Issue.nodup_of_about fun id => ?_
  change (Walk.about _ id).Nodup
  by_cases hr : ReflTransGen g.Binds root id
  · exact (hnd id hr).sublist (about_sublist hb ha id)
  · rw [(blank_of_not_reaches hb ha hr).2]
    exact List.nodup_nil

end Validate

end Graph

/-! ## Runs -/

/-- What the validation of a node goes through, and what it says about open inputs. -/
structure Graph.Surveyed (g : Graph) (root : NodeId) : Prop where
  /-- The walk comes to its end by itself: a deeper one is the same. -/
  halts : ∀ depth, g.nodes.size ≤ depth → g.visit depth root .start = g.visit g.nodes.size root .start
  /-- It enters each node that the root depends on once, and no other one. -/
  entered : ∀ id, ReflTransGen g.Binds root id →
    (g.visit g.nodes.size root .start).visits id = 1
  unentered : ∀ id, ¬ ReflTransGen g.Binds root id →
    (g.visit g.nodes.size root .start).visits id = 0
  /-- Each unconnected input is reported once, -/
  unconnected : ∀ id, ReflTransGen g.Binds root id → ∀ input,
    (g.inputs id).get input = .ok none →
      (g.validate root).issues.count (.unconnected id input) = 1
  /-- and so is each one that is bound to an unset socket without a node. -/
  detached : ∀ id, ReflTransGen g.Binds root id → ∀ input s,
    (g.inputs id).get input = .ok (some s) → (g.inputs id).feeder input = .ok none →
      g.state s ≠ .valid → (g.validate root).issues.count (.detached id input s.name) = 1
  /-- If that socket has a value there is nothing to report. -/
  served : ∀ id, ReflTransGen g.Binds root id → ∀ input s,
    (g.inputs id).get input = .ok (some s) → (g.inputs id).feeder input = .ok none →
      g.state s = .valid → ∀ issue ∈ (g.validate root).issues, issue.node = id → issue.input ≠ input
  /-- No other input is reported to be unconnected, -/
  of_unconnected : ∀ id input, .unconnected id input ∈ (g.validate root).issues →
    ReflTransGen g.Binds root id ∧ (g.inputs id).get input = .ok none
  /-- or to be detached. -/
  of_detached : ∀ id input output, .detached id input output ∈ (g.validate root).issues →
    ReflTransGen g.Binds root id ∧ ∃ s, (g.inputs id).get input = .ok (some s) ∧
      (g.inputs id).feeder input = .ok none ∧ g.state s ≠ .valid ∧ s.name = output
  /-- There is at most one issue about each input, -/
  once : ((g.validate root).issues.map fun issue => (issue.node, issue.input)).Nodup
  /-- and the issues about a node follow the order of its inputs. -/
  ordered : ∀ id, (((g.validate root).issues.filter (·.node = id)).map (·.input)).Sublist
    (g.inputs id).names

open Machine

variable {past : List Machine} {m : Machine} {root : NodeId}

/-- The binding of an input is an edge that lies on a cycle, and the root depends on it. -/
structure Graph.OnCycle (g : Graph) (root node : NodeId) (input : String) (source : Socket) :
    Prop where
  reached : ReflTransGen g.Binds root node
  declared : g.Declares source
  bound : (g.inputs node).get input = .ok (some source)
  held : (g.inputs node).feeder input = .ok (some source.owner)
  back : ReflTransGen g.Binds source.owner node

theorem Machine.onCycle_of_mem_validate (h : Run past m) (ha : m.graph.alive root = true)
    {node : NodeId} {input : String} {source : Socket}
    (hi : .cycle node input source ∈ (m.graph.validate root).issues) :
    m.graph.OnCycle root node input source := by
  have hb := (firm h).bound
  cases Graph.real_of_mem_validate hb ha hi with
  | @cycle _ feeder slot s hr hs hbind hback =>
    have hal := Graph.alive_of_reflTransGen hb ha hr
    obtain ⟨hnames, hnd⟩ := names_inputs_eq h hal
    have hc : m.workspace.Carries ⟨s, some feeder⟩ :=
      .bound hal (List.mem_filterMap.mpr ⟨slot, hs, hbind⟩)
    obtain rfl : s.owner = feeder := (fits h hc).feeder_eq feeder rfl
    obtain ⟨hg, hf⟩ := Inputs.get_feeder_of_mem (hnames ▸ hnd) hs hbind
    exact ⟨hr, hc.declares (wired h), hg, hf, hback⟩

/-- A validation finds an issue about a cycle exactly if the root depends on a cycle, and what it
finds is an edge of one. -/
theorem Run.cycles_iff (h : Run past m) (ha : m.graph.alive root = true) :
    ((∃ issue ∈ (m.graph.validate root).issues, issue.IsCycle) ↔
      ∃ id, ReflTransGen m.graph.Binds root id ∧ TransGen m.graph.Binds id id) ∧
    ∀ node input source, .cycle node input source ∈ (m.graph.validate root).issues →
      m.graph.OnCycle root node input source := by
  have hb := (firm h).bound
  refine ⟨⟨?_, ?_⟩, fun node input source => onCycle_of_mem_validate h ha⟩
  · rintro ⟨issue, hi, hcyc⟩
    cases issue with
    | unconnected | detached => exact hcyc.elim
    | cycle node input source =>
      obtain ⟨hr, -, -, hf, hback⟩ := onCycle_of_mem_validate h ha hi
      have hbinds : m.graph.Binds node source.owner :=
        ⟨Graph.alive_of_reflTransGen hb ha hr, Inputs.mem_feeders_of_feeder hf⟩
      exact ⟨node, hr, .head' hbinds hback⟩
  · rintro ⟨id, hr, hcyc⟩
    exact Graph.exists_cycle_of_transGen hb ha hr hcyc

/-- A sum of a constant and of itself. -/
theorem Run.cycles_iff_loop :
    ∃ past m, Run past m ∧ m.graph.alive ⟨1⟩ = true ∧
      (m.graph.validate ⟨1⟩).issues = [.cycle ⟨1⟩ "v2" ⟨⟨1⟩, "v"⟩] ∧
      ∃ id, ReflTransGen m.graph.Binds ⟨1⟩ id ∧ TransGen m.graph.Binds id id := by
  have he : Machine.start.execAll 100
      [.edit (.create "five" .identifier (.value (.ofInt 5))),
        .edit (.create "loop" .identifier .add),
        .edit (.connect (.label "loop") "v1" (.output (.label "five") "v")),
        .edit (.connect (.label "loop") "v2" (.output (.label "loop") "v"))] = some (_, _) := rfl
  obtain ⟨⟨past, h⟩, -⟩ := Run.start.of_execAll rfl he
  exact ⟨past, _, h, rfl, rfl, (h.cycles_iff rfl).1.mp
    ⟨.cycle ⟨1⟩ "v2" ⟨⟨1⟩, "v"⟩, List.mem_cons_self, trivial⟩⟩

/-- A validation comes to its end, goes through each node that the root depends on once, and reports
each open input once. -/
theorem Run.surveyed (h : Run past m) (ha : m.graph.alive root = true) :
    m.graph.Surveyed root := by
  have hb := (firm h).bound
  have hal {id : NodeId} (hr : ReflTransGen m.graph.Binds root id) : m.graph.alive id = true :=
    Graph.alive_of_reflTransGen hb ha hr
  have hnd (id : NodeId) (hr : ReflTransGen m.graph.Binds root id) :
      (m.graph.inputs id).names.Nodup := by
    obtain ⟨hnames, hnd⟩ := names_inputs_eq h (hal hr)
    exact hnames ▸ hnd
  have hcount {issue : Issue} (hi : issue ∈ (m.graph.validate root).issues) :
      (m.graph.validate root).issues.count issue = 1 :=
    List.count_eq_one_of_mem (Graph.nodup_issues hb ha hnd).of_map hi
  have hunset (s : Socket) : m.graph.state s ≠ .valid ↔ m.graph.cell? s = none := by
    rw [Ne, Graph.state_eq_valid, Option.not_isSome_iff_eq_none]
  exact
    { halts := fun depth hd => Graph.visit_of_le hb ha rfl Graph.length_blank_start_le hd
      entered := fun id hr =>
        ((Graph.tidy_validate hb ha).marked id ((Graph.isSome_mark?_iff hb ha id).mpr hr)).1
      unentered := fun id hr => (Graph.blank_of_not_reaches hb ha hr).1
      unconnected := fun id hr input hg => by
        obtain ⟨slot, hs, rfl, hslot⟩ := Inputs.exists_slot_of_get hg
        exact hcount (Graph.mem_validate_of_unconnected hb ha hr hs (Option.map_eq_none_iff.mp hslot))
      detached := fun id hr input s hg hf hstate => by
        obtain ⟨slot, hs, rfl, hbind⟩ := Inputs.exists_slot_of_feeder hg hf
        exact hcount (Graph.mem_validate_of_detached hb ha hr hs hbind ((hunset s).mp hstate))
      -- Each kind of issue would contradict the binding of the input or the state of the socket.
      served := fun id hr input s hg hf hstate issue hi hnode hinput => by
        subst hnode hinput
        cases Graph.real_of_mem_validate hb ha hi with
        | @unconnected id slot hr hs hbind =>
          have hg' := Inputs.get_of_mem (hnd id hr) hs
          rw [hbind] at hg'
          cases hg.symm.trans hg'
        | @cycle id feeder slot t hr hs hbind =>
          cases hf.symm.trans (Inputs.get_feeder_of_mem (hnd id hr) hs hbind).2
        | @detached id slot t hr hs hbind hc =>
          cases hg.symm.trans (Inputs.get_feeder_of_mem (hnd id hr) hs hbind).1
          exact (hunset s).mpr hc hstate
      of_unconnected := fun id input hi => by
        cases Graph.real_of_mem_validate hb ha hi with
        | @unconnected _ slot hr hs hbind =>
          refine ⟨hr, (Inputs.get_of_mem (hnd id hr) hs).trans ?_⟩
          rw [hbind]
          rfl
      of_detached := fun id input output hi => by
        cases Graph.real_of_mem_validate hb ha hi with
        | @detached _ slot s hr hs hbind hc =>
          obtain ⟨hg, hf⟩ := Inputs.get_feeder_of_mem (hnd id hr) hs hbind
          exact ⟨hr, s, hg, hf, (hunset s).mpr hc, rfl⟩
      once := Graph.nodup_issues hb ha hnd
      ordered := Graph.about_sublist hb ha }

/-- Two inputs of a sum are bound to the same other sum, which has no inputs connected. -/
theorem Run.surveyed_shared :
    ∃ past m, Run past m ∧ m.graph.alive ⟨1⟩ = true ∧
      (m.graph.validate ⟨1⟩).issues = [.unconnected ⟨0⟩ "v1", .unconnected ⟨0⟩ "v2"] ∧
      m.graph.Surveyed ⟨1⟩ ∧ (m.graph.visit m.graph.nodes.size ⟨1⟩ .start).visits ⟨0⟩ = 1 := by
  have he : Machine.start.execAll 100
      [.edit (.create "inner" .identifier .add),
        .edit (.create "outer" .identifier .add),
        .edit (.connect (.label "outer") "v1" (.output (.label "inner") "v")),
        .edit (.connect (.label "outer") "v2" (.output (.label "inner") "v"))] = some (_, _) := rfl
  obtain ⟨⟨past, h⟩, -⟩ := Run.start.of_execAll rfl he
  exact ⟨past, _, h, rfl, rfl, h.surveyed rfl,
    (h.surveyed rfl).entered ⟨0⟩ (.single ⟨rfl, List.mem_cons_self⟩)⟩

end PullGraph

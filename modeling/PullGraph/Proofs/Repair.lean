import PullGraph.Proofs.Exec
import PullGraph.Proofs.Refusal
import PullGraph.Proofs.Survey

/-!
# Repair of cycles

The issues about cycles that a validation finds say what to disconnect. When that is done, the next
validation takes the same way and finds the same, except that it comes upon unconnected inputs where
it came upon cycles.

* `Issue.cut?`: the input that an issue about a cycle says to disconnect. `Issue.mended` is the
  issue that is then found in its place.
* `Graph.Cut`: a graph with some inputs disconnected.
* `Graph.Told`: the walk has said of a node all that it will say.
* `Graph.look_cut`, `Graph.foldl_look_cut`, `Graph.visit_cut`: with the inputs disconnected that the
  issues say, looks and visits go the same way.
* `Graph.issues_cut`: the validation of the repaired graph.
* `Graph.reaches_of_cut_subset`: to disconnect more than that hides no issue that the walk can still
  reach.
* `Repair`: a repair as a program carries it out, one input after the other, with handles coming and
  going in between. `Repair.exists_repair`: whatever the issues say can be carried out.
* `Run.repaired`: what it comes to.
-/

namespace PullGraph

open Relation

/-! ## Issues about cycles -/

namespace Issue

/-- The input that the issue says to disconnect. -/
def cut? : Issue → Option (NodeId × String)
  | .cycle node input _ => some (node, input)
  | _ => none

/-- The issue that is found instead when the input is disconnected. -/
def mended : Issue → Issue
  | .cycle node input _ => .unconnected node input
  | issue => issue

theorem not_isCycle_mended (issue : Issue) : ¬ issue.mended.IsCycle := by
  cases issue <;> exact id

end Issue

/-- All inputs that the issues of a report say to disconnect. -/
def Report.cuts (r : Report) : List (NodeId × String) := r.issues.filterMap Issue.cut?

theorem Report.mem_cuts {r : Report} {id : NodeId} {input : String} :
    (id, input) ∈ r.cuts ↔ ∃ source, .cycle id input source ∈ r.issues := by
  constructor
  · intro h
    obtain ⟨issue, hi, hc⟩ := List.mem_filterMap.mp h
    cases issue with
    | cycle node input' source =>
      cases hc
      exact ⟨source, hi⟩
    | unconnected | detached => cases hc
  · rintro ⟨source, hi⟩
    exact List.mem_filterMap.mpr ⟨_, hi, rfl⟩

/-! ## Disconnected inputs -/

/-- An input of a node, disconnected if it is one of those that are listed. -/
def Slot.cut (cuts : List (NodeId × String)) (id : NodeId) (slot : Slot) : Slot :=
  if (id, slot.name) ∈ cuts then { slot with binding := none } else slot

namespace Slot

variable {cuts : List (NodeId × String)} {id : NodeId} {slot : Slot}

theorem cut_of_mem (h : (id, slot.name) ∈ cuts) : slot.cut cuts id = ⟨slot.name, none⟩ := if_pos h

theorem cut_of_not_mem (h : (id, slot.name) ∉ cuts) : slot.cut cuts id = slot := if_neg h

@[simp] theorem name_cut : (slot.cut cuts id).name = slot.name := by
  unfold cut
  split <;> rfl

end Slot

/-- The second graph is the first one with some inputs disconnected. -/
structure Graph.Cut (g : Graph) (cuts : List (NodeId × String)) (g' : Graph) : Prop where
  slots : ∀ id, (g'.inputs id).slots = (g.inputs id).slots.map (Slot.cut cuts id)
  cells : ∀ s, g'.cell? s = g.cell? s

namespace Walk

/-- The walk with the issues that are found when all that they say to disconnect is disconnected. -/
def mended (walk : Walk) : Walk := { walk with issues := walk.issues.map Issue.mended }

variable {walk : Walk} {id : NodeId}

@[simp] theorem mark?_mended : walk.mended.mark? id = walk.mark? id := rfl

theorem mended_mark (m : Mark) : (walk.mark id m).mended = walk.mended.mark id m := rfl

theorem mended_report (issue : Issue) :
    (walk.report issue).mended = walk.mended.report issue.mended := by
  simp [mended, report]

end Walk

namespace Graph

variable {g g' : Graph} {walk walk' : Walk} {id root : NodeId}

/-! ## The same way -/

/-- Among all issues there are none about the node but those that the walk has found. -/
def Told (issues : List Issue) (walk : Walk) (id : NodeId) : Prop :=
  ∀ issue ∈ issues, issue.node = id → issue.input ∈ walk.about id

/-- The issues are all that there are, as far as the nodes matter that the walk has marked on its
way. -/
structure Final (issues : List Issue) (walk walk' : Walk) : Prop where
  subset : walk'.issues ⊆ issues
  told : ∀ id, walk.mark? id = none → (walk'.mark? id).isSome = true → Told issues walk' id

/-- The visits of the first graph go the same way in the second one. -/
def Mends (g g' : Graph) (root : NodeId) (issues : List Issue) (depth : Nat) : Prop :=
  ∀ id walk, walk.mark? id = none → ReflTransGen g.Binds root id → g.Tidy root walk →
    Final issues walk (g.visit depth id walk) →
      g'.visit depth id walk.mended = (g.visit depth id walk).mended

section Same

variable {r : Report} (hcut : g.Cut r.cuts g')
  (hone : ∀ issue ∈ r.issues, ∀ other ∈ r.issues,
    issue.node = other.node → issue.input = other.input → issue = other)
  (hb : ∀ id other, g.Binds id other → g.alive other = true) (ha : g.alive root = true)

include hcut hone hb ha

section Look

variable {depth : Nat} (hv : Mends g g' root r.issues depth)

include hv

/-- The look at an input: if it says nothing, then the input is not to be disconnected. -/
theorem look_cut {slot : Slot} (hr : ReflTransGen g.Binds root id)
    (hs : slot ∈ (g.inputs id).slots) (hm : walk.mark? id = some .visiting) (ht : g.Tidy root walk)
    (hf : Final r.issues walk (g.look (g.visit depth) id walk slot))
    (hsilent : (g.look (g.visit depth) id walk slot).about id = walk.about id →
      (id, slot.name) ∉ r.cuts) :
    g'.look (g'.visit depth) id walk.mended (slot.cut r.cuts id) =
      (g.look (g.visit depth) id walk slot).mended := by
  rcases hbind : slot.binding with _ | ⟨s, _ | feeder⟩
  · have hcutslot : slot.cut r.cuts id = slot := by
      by_cases hc : (id, slot.name) ∈ r.cuts
      · rw [Slot.cut_of_mem hc, ← hbind]
      · exact Slot.cut_of_not_mem hc
    rw [hcutslot]
    simp only [look, hbind, Walk.mended_report]
    rfl
  · have hnot : (id, slot.name) ∉ r.cuts := by
      intro hc
      cases hcell : (g.cell? s).isSome with
      | true =>
        refine hsilent ?_ hc
        simp only [look, hbind, hcell, if_true]
      | false =>
        obtain ⟨source, hi⟩ := Report.mem_cuts.mp hc
        have hd : .detached id slot.name s.name ∈ r.issues := by
          refine hf.subset ?_
          simp [look, hbind, hcell]
        -- Each input has one issue, so a detached one is not among those that close a cycle.
        cases hone _ hd _ hi rfl rfl
    rw [Slot.cut_of_not_mem hnot]
    simp only [look, hbind, hcut.cells]
    split
    · rfl
    · rw [Walk.mended_report]
      rfl
  · cases hmark : walk.mark? feeder with
    | some mark =>
      cases mark with
      | visiting =>
        have hc : (id, slot.name) ∈ r.cuts := by
          refine Report.mem_cuts.mpr ⟨⟨feeder, s.name⟩, hf.subset ?_⟩
          simp [look, hbind, hmark]
        rw [Slot.cut_of_mem hc]
        simp only [look, hbind, hmark, Walk.mended_report]
        rfl
      | done =>
        have hnot : (id, slot.name) ∉ r.cuts := hsilent (by simp only [look, hbind, hmark])
        rw [Slot.cut_of_not_mem hnot]
        simp only [look, hbind, hmark, Walk.mark?_mended]
    | none =>
      have hal := alive_of_reflTransGen hb ha hr
      have hr' := hr.tail (binds_of_slot hal hs hbind)
      have hlook : g.look (g.visit depth) id walk slot = g.visit depth feeder walk := by
        simp only [look, hbind, hmark]
      rw [hlook] at hf hsilent ⊢
      -- The visit of the feeder says nothing of this node, which has its mark already.
      have hsame := (visit_tidy hb ha depth feeder walk hmark hr' ht).2 id (by rw [hm]; rfl)
      rw [Slot.cut_of_not_mem (hsilent hsame), ← hv feeder walk hmark hr' ht hf]
      simp only [look, hbind, hmark, Walk.mark?_mended]

/-- The looks at some inputs, one after the other. -/
theorem foldl_look_cut {slots : List Slot} (hr : ReflTransGen g.Binds root id)
    (hs : ∀ slot ∈ slots, slot ∈ (g.inputs id).slots) (hnd : (slots.map (·.name)).Nodup)
    (hm : walk.mark? id = some .visiting) (ht : g.Tidy root walk)
    (hnew : ∀ slot ∈ slots, slot.name ∉ walk.about id)
    (hf : Final r.issues walk (slots.foldl (g.look (g.visit depth) id) walk))
    (htold : Told r.issues (slots.foldl (g.look (g.visit depth) id) walk) id) :
    (slots.map (Slot.cut r.cuts id)).foldl (g'.look (g'.visit depth) id) walk.mended =
      (slots.foldl (g.look (g.visit depth) id) walk).mended := by
  induction slots generalizing walk with
  | nil => rfl
  | cons slot slots ih =>
    have hal := alive_of_reflTransGen hb ha hr
    have hs' (s : Slot) (h : s ∈ slots) : s ∈ (g.inputs id).slots := hs s (List.mem_cons_of_mem _ h)
    obtain ⟨hname, hnd⟩ : slot.name ∉ slots.map (·.name) ∧ (slots.map (·.name)).Nodup :=
      List.nodup_cons.mp hnd
    have hvis (k : NodeId) (walk : Walk) (hm : walk.mark? k = none) :
        walk.Extends (g.visit depth k walk) := extends_visit depth hm
    have htidies := visit_tidy hb ha depth
    have he : walk.Extends (g.look (g.visit depth) id walk slot) := extends_look hvis id walk slot
    have he' : (g.look (g.visit depth) id walk slot).Extends (slots.foldl
        (g.look (g.visit depth) id) (g.look (g.visit depth) id walk slot)) :=
      extends_foldl_look hvis id _ slots
    obtain ⟨ht', -, said, hsaid, hsub⟩ := look_tidy htidies hal (hs slot List.mem_cons_self) hm ht
    have hm' := (he.visiting id).mpr hm
    obtain ⟨-, hsame', said', hsaid', hsub'⟩ := foldl_look_tidy htidies hal hs' hm' ht'
    rw [List.foldl_cons] at hf htold ⊢
    rw [List.map_cons, List.foldl_cons]
    have hlook := look_cut hcut hone hb ha hv hr (hs slot List.mem_cons_self) hm ht
      ⟨fun i hi => hf.subset (he'.issues.subset hi), fun k hk hk' issue hi hn => ?_⟩
      fun hsilent hc => ?_
    · rw [hlook]
      refine ih hs' hnd hm' ht' (fun s h hm => ?_)
        ⟨hf.subset, fun k hk hk' => hf.told k (he.mark?_eq_none hk) hk'⟩ htold
      rw [hsaid] at hm
      rcases List.mem_append.mp hm with hm | hm
      · exact hnew s (List.mem_cons_of_mem _ h) hm
      · have e := List.mem_singleton.mp (hsub.subset hm)
        exact hname (e ▸ List.mem_map_of_mem h)
    · -- What is said in the end of a node that was marked on the way here was said on the way here.
      have hne : k ≠ id := fun e => by simp [e, hm] at hk
      rw [← hsame' k hk' hne]
      exact hf.told k hk (he'.isSome_mark? hk') issue hi hn
    · obtain ⟨source, hi⟩ := Report.mem_cuts.mp hc
      have hin := htold _ hi rfl
      rw [hsaid', hsilent] at hin
      rcases List.mem_append.mp hin with hin | hin
      · exact hnew slot List.mem_cons_self hin
      · exact hname (hsub'.subset hin)

end Look

/-- Visits go the same way, however deep. -/
theorem visit_cut (depth : Nat)
    (hnd : ∀ id, ReflTransGen g.Binds root id → (g.inputs id).names.Nodup) :
    Mends g g' root r.issues depth := by
  induction depth with
  | zero => exact fun _ _ _ _ _ _ => rfl
  | succ depth ih =>
    intro id walk hm hr ht hf
    have he : (walk.mark id .visiting).Extends
        ((g.inputs id).slots.foldl (g.look (g.visit depth) id) (walk.mark id .visiting)) :=
      extends_foldl_look (fun _ _ h => extends_visit depth h) id _ _
    have hblank : (walk.mark id .visiting).about id = [] := (ht.blank id hm).2
    -- The mark for the end of the visit says nothing, and only this node gets it.
    have htold (k : NodeId) (hk : walk.mark? k = none)
        (hk' : k = id ∨ (((g.inputs id).slots.foldl (g.look (g.visit depth) id)
          (walk.mark id .visiting)).mark? k).isSome = true) :
        Told r.issues ((g.inputs id).slots.foldl (g.look (g.visit depth) id)
          (walk.mark id .visiting)) k := by
      refine hf.told k hk ?_
      rw [visit, Walk.mark?_mark]
      split
      · rfl
      · next hne => exact hk'.resolve_left hne
    rw [visit, visit, hcut.slots, Walk.mended_mark]
    congr 1
    refine foldl_look_cut hcut hone hb ha ih hr (fun _ h => h) (hnd id hr) Walk.mark?_mark_self
      (ht.mark_visiting hm hr) (fun slot _ => by simp [hblank])
      ⟨hf.subset, fun k hk hk' => ?_⟩ (htold id hm (.inl rfl))
    rw [Walk.mark?_mark] at hk
    split at hk
    · cases hk
    · exact htold k hk (.inr hk')

end Same

/-! ## The next validation -/

section Validate

variable (hcut : g.Cut (g.validate root).cuts g')
  (hb : ∀ id other, g.Binds id other → g.alive other = true) (ha : g.alive root = true)
  (hnd : ∀ id, ReflTransGen g.Binds root id → (g.inputs id).names.Nodup)
  (hb' : ∀ id other, g'.Binds id other → g'.alive other = true) (ha' : g'.alive root = true)

include hcut hb ha hnd hb' ha'

theorem visit_validate_cut :
    g'.visit g'.nodes.size root .start = (g.visit g.nodes.size root .start).mended := by
  have hone (issue : Issue) (hi : issue ∈ (g.validate root).issues) (other : Issue)
      (ho : other ∈ (g.validate root).issues) (hnode : issue.node = other.node)
      (hinput : issue.input = other.input) : issue = other :=
    List.inj_on_of_nodup_map (nodup_issues hb ha hnd) hi ho (Prod.ext hnode hinput)
  have hfinal : Final (g.validate root).issues .start (g.visit g.nodes.size root .start) := by
    refine ⟨fun _ hi => hi, fun id _ _ issue hi hn => ?_⟩
    exact List.mem_map_of_mem (List.mem_filter.mpr ⟨hi, by simpa using hn⟩)
  -- Both walks may be taken to be as deep as the deeper one of them.
  have hdeep := visit_of_le hb ha rfl length_blank_start_le
    (Nat.le_max_left g.nodes.size g'.nodes.size)
  have hdeep' := visit_of_le hb' ha' rfl length_blank_start_le
    (Nat.le_max_right g.nodes.size g'.nodes.size)
  rw [← hdeep] at hfinal ⊢
  rw [← hdeep']
  exact visit_cut hcut hone hb ha _ hnd root .start rfl .refl (.start root) hfinal

/-- The next validation finds an unconnected input wherever the last one found a cycle. -/
theorem issues_cut : (g'.validate root).issues = (g.validate root).issues.map Issue.mended := by
  simp only [validate, visit_validate_cut hcut hb ha hnd hb' ha']
  rfl

/-- The root still depends on the same nodes. -/
theorem reaches_cut_iff : ReflTransGen g'.Binds root id ↔ ReflTransGen g.Binds root id := by
  rw [← isSome_mark?_iff hb' ha', ← isSome_mark?_iff hb ha,
    visit_validate_cut hcut hb ha hnd hb' ha', Walk.mark?_mended]

/-- No cycle is left. -/
theorem not_transGen_cut (hr : ReflTransGen g'.Binds root id) : ¬ TransGen g'.Binds id id := by
  intro hc
  obtain ⟨issue, hi, hcyc⟩ := exists_cycle_of_transGen hb' ha' hr hc
  rw [issues_cut hcut hb ha hnd hb' ha'] at hi
  obtain ⟨old, -, rfl⟩ := List.mem_map.mp hi
  exact old.not_isCycle_mended hcyc

end Validate

/-! ## Graphs with inputs disconnected -/

namespace Cut

variable {g'' : Graph} {cuts more : List (NodeId × String)}

theorem of_eq (hi : ∀ id, g'.inputs id = g.inputs id) (hc : ∀ s, g'.cell? s = g.cell? s) :
    g.Cut [] g' := by
  refine ⟨fun id => ?_, hc⟩
  rw [hi, List.map_congr_left fun slot _ => Slot.cut_of_not_mem List.not_mem_nil, List.map_id']

theorem trans (h : g.Cut cuts g') (h' : g'.Cut more g'') : g.Cut (more ++ cuts) g'' := by
  refine ⟨fun id => ?_, fun s => (h'.cells s).trans (h.cells s)⟩
  rw [h'.slots, h.slots, List.map_map]
  refine List.map_congr_left fun slot _ => ?_
  simp only [Function.comp_apply, Slot.cut, List.mem_append]
  split <;> split <;> simp_all

theorem congr (h : g.Cut cuts g') (hm : cuts ⊆ more) (hm' : more ⊆ cuts) : g.Cut more g' := by
  refine ⟨fun id => (h.slots id).trans ?_, h.cells⟩
  refine List.map_congr_left fun slot _ => ?_
  unfold Slot.cut
  exact if_congr ⟨fun hc => hm hc, fun hc => hm' hc⟩ rfl rfl

theorem release (h : g.Cut cuts g') (outside : List NodeId) : g.Cut cuts (g'.release outside) :=
  ⟨fun id => by rw [inputs_release, h.slots], fun s => by rw [cell?_release, h.cells]⟩

/-- A node may be given the inputs that it has, with one of them disconnected. -/
theorem of_rewire {input : String} {inputs : Inputs}
    (h : inputs.slots = (g.inputs id).slots.map (Slot.cut [(id, input)] id)) :
    g.Cut [(id, input)] (g.rewire id inputs) := by
  refine ⟨fun k => ?_, cell?_rewire g id inputs⟩
  by_cases hk : k = id
  · subst hk
    rw [← h]
    cases hn : g.node? k with
    | none =>
      -- A node without a record has no inputs, neither before nor after.
      simp only [Graph.inputs, hn] at h
      simp only [Graph.inputs, rewire, node?_update_self, hn]
      exact h.symm
    | some node => simp only [Graph.inputs, rewire, node?_update_self, hn, Option.map_some,
        Option.getD_some]
  · have hother : (g.rewire id inputs).inputs k = g.inputs k := by
      simp only [Graph.inputs, rewire, node?_update_of_ne _ _ hk]
    rw [hother, List.map_congr_left fun slot _ => Slot.cut_of_not_mem (by simp [hk]), List.map_id']

/-- Disconnecting an input disconnects that input and no other. -/
theorem of_disconnect {input : String} {records : List Record} (hnd : (g.inputs id).names.Nodup)
    (h : g.disconnect id input = .ok (g', records)) : g.Cut [(id, input)] g' := by
  obtain ⟨inputs, hset, rfl⟩ := setInput_eq_ok h
  refine .of_rewire ?_
  rw [Inputs.slots_of_rebind hset, Inputs.rebound_eq_map _ _ hnd]
  refine List.map_congr_left fun slot _ => ?_
  simp [Slot.cut]

/-- An input that is not there need not be disconnected. -/
theorem of_disconnect_error {input : String} {e : GraphError}
    (h : g.disconnect id input = .error e) : g.Cut [(id, input)] g := by
  have hn := (setInput_eq_error_iff.mp h).1
  refine ⟨fun k => ?_, fun _ => rfl⟩
  rw [List.map_congr_left fun slot hs => Slot.cut_of_not_mem fun hc => ?_, List.map_id']
  obtain ⟨rfl, rfl⟩ := Prod.mk.inj (List.mem_singleton.mp hc)
  exact hn (List.mem_map_of_mem hs)

theorem mem_feeders_iff (h : g.Cut cuts g') {other : NodeId} :
    other ∈ (g'.inputs id).feeders ↔ ∃ slot ∈ (g.inputs id).slots,
      (id, slot.name) ∉ cuts ∧ slot.binding.bind (·.feeder) = some other := by
  simp only [Inputs.feeders, h.slots, List.filterMap_map, List.mem_filterMap, Function.comp_apply]
  refine exists_congr fun slot => and_congr_right fun _ => ?_
  by_cases hc : (id, slot.name) ∈ cuts
  · simp [Slot.cut_of_mem hc, hc]
  · simp [Slot.cut_of_not_mem hc, hc]

end Cut

/-- Inputs may be disconnected without any node dying of it. -/
theorem exists_cut (g : Graph) (cuts : List (NodeId × String)) :
    ∃ g', g.Cut cuts g' ∧ ∀ id, g'.alive id = g.alive id := by
  induction cuts with
  | nil => exact ⟨g, .of_eq (fun _ => rfl) fun _ => rfl, fun _ => rfl⟩
  | cons cut cuts ih =>
    obtain ⟨id, input⟩ := cut
    obtain ⟨g', hcut, halive⟩ := ih
    have hone : g'.Cut [(id, input)] (g'.rewire id
        ⟨(g'.inputs id).slots.map (Slot.cut [(id, input)] id)⟩) := .of_rewire rfl
    refine ⟨_, hcut.trans hone, fun k => ?_⟩
    rw [alive_rewire, halive]

/-- While a repair is under way the root depends on the nodes that it will depend on in the end. -/
theorem reaches_of_cut_subset {done : List (NodeId × String)} (hcut : g.Cut done g')
    (hsub : done ⊆ (g.validate root).cuts)
    (hb : ∀ id other, g.Binds id other → g.alive other = true) (ha : g.alive root = true)
    (hnd : ∀ id, ReflTransGen g.Binds root id → (g.inputs id).names.Nodup)
    (hb' : ∀ id other, g'.Binds id other → g'.alive other = true) (ha' : g'.alive root = true)
    (hr : ReflTransGen g.Binds root id) : ReflTransGen g'.Binds root id := by
  obtain ⟨full, hfull, halive⟩ := g.exists_cut (g.validate root).cuts
  have hbfull (k other : NodeId) (hbinds : full.Binds k other) : full.alive other = true := by
    obtain ⟨slot, hs, -, hf⟩ := hfull.mem_feeders_iff.mp hbinds.2
    rw [halive]
    exact hb k other ⟨halive k ▸ hbinds.1, List.mem_filterMap.mpr ⟨slot, hs, hf⟩⟩
  have hr' := (reaches_cut_iff hfull hb ha hnd hbfull ((halive root).trans ha)).mpr hr
  clear hr
  induction hr' with
  | refl => exact .refl
  | tail _ hbinds ih =>
    obtain ⟨slot, hs, hc, hf⟩ := hfull.mem_feeders_iff.mp hbinds.2
    exact ih.tail ⟨alive_of_reflTransGen hb' ha' ih,
      hcut.mem_feeders_iff.mpr ⟨slot, hs, fun hd => hc (hsub hd), hf⟩⟩

end Graph

/-! ## Repairs -/

/-- The edit changes what a program holds and nothing else. -/
def Edit.OnHandles : Edit → Prop
  | .copyNode .. | .dropNode _ | .keepOutput .. | .dropSocket _ | .keepOwner .. | .keepFeeder ..
  | .copyInputs .. | .dropInputs _ => True
  | _ => False

theorem Edit.OnHandles.graph_after {e : Edit} (he : e.OnHandles) (scope : Scope) (w : Workspace) :
    (e.after scope w).graph = w.graph := by
  rw [after]
  split
  · next reply w' records h =>
    cases e with
    | copyNode node label =>
      obtain ⟨id, -, h⟩ := bind_eq_ok.mp h
      cases pure_eq_ok.mp h
      rfl
    | keepOutput node name label =>
      obtain ⟨id, -, h⟩ := bind_eq_ok.mp h
      obtain ⟨s, -, h⟩ := bind_eq_ok.mp h
      cases pure_eq_ok.mp h
      rfl
    | keepOwner r label =>
      obtain ⟨s, -, h⟩ := bind_eq_ok.mp h
      split at h <;> (cases pure_eq_ok.mp h; rfl)
    | keepFeeder i name label =>
      obtain ⟨inputs, -, h⟩ := bind_eq_ok.mp h
      obtain ⟨id, -, h⟩ := bind_eq_ok.mp h
      split at h <;> (cases pure_eq_ok.mp h; rfl)
    | copyInputs i label =>
      obtain ⟨inputs, -, h⟩ := bind_eq_ok.mp h
      cases pure_eq_ok.mp h
      rfl
    | dropNode | dropSocket | dropInputs =>
      cases h
      rfl
    | _ => cases he
  · rfl

section Disconnect

variable {scope : Scope} {w : Workspace} {label input : String} {id : NodeId}
  (hn : w.handles.nodes.get? label = some id)

include hn

theorem Edit.apply_disconnect :
    (disconnect (.label label) input).apply scope w =
      StepError.ofGraph ((Operation.disconnect id input).result w) := by
  have hid : scope.node w (.label label) = .ok id := Table.find_eq_ok.mpr hn
  exact Edit.Means.apply_eq (.disconnect hid)

/-- What disconnecting an input of a node leaves behind, whether or not there is such an input. -/
theorem Edit.cut_after_disconnect (hnd : (w.graph.inputs id).names.Nodup) :
    w.graph.Cut [(id, input)] ((disconnect (.label label) input).after scope w).graph := by
  rw [after, Edit.apply_disconnect hn, Operation.result]
  cases hg : w.graph.disconnect id input with
  | error e => exact .of_disconnect_error hg
  | ok changed => exact .of_disconnect hnd hg

theorem Edit.handles_after_disconnect :
    ((disconnect (.label label) input).after scope w).handles = w.handles := by
  rw [after, Edit.apply_disconnect hn, Operation.result]
  cases w.graph.disconnect id input <;> rfl

end Disconnect

open Machine

/-- Inputs are disconnected one after the other, of nodes that the program has a handle for. In
between the program may take and drop handles. The list is that of the inputs disconnected so far,
all of them from among `cuts`. -/
inductive Repair (cuts : List (NodeId × String)) :
    Machine → List (NodeId × String) → Machine → Prop
  | refl (m : Machine) : Repair cuts m [] m
  | disconnect {m n k : Machine} {done : List (NodeId × String)} {label input : String}
      {id : NodeId} {limit : Nat} {entry : Entry} (h : Repair cuts m done n)
      (hn : n.workspace.handles.nodes.get? label = some id) (hc : (id, input) ∈ cuts)
      (hx : n.exec limit (.edit (.disconnect (.label label) input)) = some (entry, k)) :
      Repair cuts m ((id, input) :: done) k
  | handle {m n k : Machine} {done : List (NodeId × String)} {e : Edit} {limit : Nat}
      {entry : Entry} (h : Repair cuts m done n) (he : e.OnHandles)
      (hx : n.exec limit (.edit e) = some (entry, k)) : Repair cuts m done k

variable {past : List Machine} {m n k : Machine} {root : NodeId}
  {cuts done : List (NodeId × String)}

/-- A graph that an edit cuts is still cut when the nodes are dead that nothing holds any longer. -/
theorem Graph.Cut.of_exec_edit {g : Graph} {e : Edit} {limit : Nat} {entry : Entry}
    (hi : m.idle = true) (hx : m.exec limit (.edit e) = some (entry, n))
    (hcut : g.Cut done (e.after (m.load (.edit e)).scope m.workspace).graph) :
    g.Cut done n.graph := by
  rw [graph, workspace_of_exec_edit hi hx]
  exact hcut.release _

/-- No input name is used twice by a living node. -/
theorem Run.nodup_names (h : Run past m) {id : NodeId} (ha : m.graph.alive id = true) :
    (m.graph.inputs id).names.Nodup := by
  obtain ⟨hnames, hnd⟩ := names_inputs_eq h ha
  exact hnames ▸ hnd

/-- A repair leads from one rest of a run to another, and disconnects the inputs in its list. -/
theorem Repair.cut (hr : Repair cuts m done n) (h : Run past m) (hi : m.idle = true) :
    (∃ past', Run past' n) ∧ n.idle = true ∧ done ⊆ cuts ∧ m.graph.Cut done n.graph := by
  induction hr generalizing past with
  | refl => exact ⟨⟨past, h⟩, hi, List.nil_subset _, .of_eq (fun _ => rfl) fun _ => rfl⟩
  | disconnect _ hn hc hx ih =>
    obtain ⟨⟨past', h'⟩, hi', hsub, hcut⟩ := ih h
    obtain ⟨hrun, hidle⟩ := h'.of_exec hi' hx
    have hnd := h'.nodup_names ((firm h').handles _ (Table.mem_values_of_get? hn))
    exact ⟨hrun, hidle, List.cons_subset.mpr ⟨hc, hsub⟩,
      .of_exec_edit hi' hx (hcut.trans (Edit.cut_after_disconnect hn hnd))⟩
  | handle _ he hx ih =>
    obtain ⟨⟨past', h'⟩, hi', hsub, hcut⟩ := ih h
    obtain ⟨hrun, hidle⟩ := h'.of_exec hi' hx
    refine ⟨hrun, hidle, hsub, .of_exec_edit hi' hx ?_⟩
    rw [he.graph_after]
    exact hcut

theorem Edit.after_copyNode {scope : Scope} {w : Workspace} {label : String} {id : NodeId}
    (hn : w.handles.nodes.get? label = some id) (work : String) :
    (copyNode (.label label) work).after scope w = w.keepNode work id := by
  have hid : scope.node w (.label label) = .ok id := Table.find_eq_ok.mpr hn
  rw [after, apply, hid]
  rfl

theorem Edit.after_keepFeeder {scope : Scope} {w : Workspace} {label input : String}
    {id other : NodeId} (hn : w.handles.nodes.get? label = some id)
    (hf : (w.graph.inputs id).feeder input = .ok (some other)) (work : String) :
    (keepFeeder (.ofNode (.label label)) input work).after scope w = w.keepNode work other := by
  have hid : scope.inputs w (.ofNode (.label label)) = .ok (w.graph.inputs id) := by
    have hid : scope.node w (.label label) = .ok id := Table.find_eq_ok.mpr hn
    rw [Scope.inputs, hid]
    rfl
  have ha : (keepFeeder (.ofNode (.label label)) input work).apply scope w =
      .ok (.id other, w.keepNode work other, []) := by
    rw [apply, hid]
    change (StepError.ofGraph ((w.graph.inputs id).feeder input) >>= _) = _
    rw [hf]
    rfl
  rw [after, ha]

/-- No input name is used twice by a node that the root depends on. -/
theorem Run.nodup_names_of_reaches (h : Run past m) (ha : m.graph.alive root = true) (id : NodeId)
    (hr : ReflTransGen m.graph.Binds root id) : (m.graph.inputs id).names.Nodup :=
  h.nodup_names (Graph.alive_of_reflTransGen (firm h).bound ha hr)

namespace Repair

variable {label work : String} {id : NodeId}

/-- A further edit that keeps a node under one label leaves the node under another label alone. -/
theorem keep (hr : Repair cuts m done n) (hi : n.idle = true) {e : Edit} (he : e.OnHandles)
    (hafter : e.after (n.load (.edit e)).scope n.workspace = n.workspace.keepNode work id)
    (hne : label ≠ work) (hroot : n.workspace.handles.nodes.get? label = some root) :
    ∃ k, Repair cuts m done k ∧ k.workspace.handles.nodes.get? label = some root ∧
      k.workspace.handles.nodes.get? work = some id := by
  obtain ⟨limit, entry, k, hx, hw⟩ := exists_exec_edit hi e
  refine ⟨k, hr.handle he hx, ?_, ?_⟩
  all_goals rw [hw, hafter]
  · exact (Table.get?_insert_of_ne _ _ hne).trans hroot
  · exact Table.get?_insert_self _ _ _

/-- The program can get hold of every node that the root depends on. -/
theorem reach (hr : Repair cuts m done n) (h : Run past m) (hi : m.idle = true) (hne : label ≠ work)
    (hroot : n.workspace.handles.nodes.get? label = some root)
    (hreach : ReflTransGen n.graph.Binds root id) :
    ∃ k, Repair cuts m done k ∧ k.workspace.handles.nodes.get? label = some root ∧
      k.workspace.handles.nodes.get? work = some id := by
  induction hreach with
  | refl =>
    exact hr.keep (hr.cut h hi).2.1 (e := .copyNode (.label label) work) trivial
      (Edit.after_copyNode hroot work) hne hroot
  | @tail b c _ hbinds ih =>
    obtain ⟨k, hrk, hrootk, hwork⟩ := ih
    obtain ⟨-, -, -, hcut⟩ := hr.cut h hi
    obtain ⟨⟨past', h'⟩, hi', -, hcut'⟩ := hrk.cut h hi
    obtain ⟨slot, hs, hf⟩ := List.mem_filterMap.mp hbinds.2
    obtain ⟨⟨s, held⟩, hbind, rfl⟩ := Option.bind_eq_some_iff.mp hf
    -- The inputs are as they were, since handles alone have changed.
    rw [hcut.slots, ← hcut'.slots] at hs
    have hal := (firm h').handles b (Table.mem_values_of_get? hwork)
    obtain ⟨hnames, hnd⟩ := names_inputs_eq h' hal
    obtain ⟨-, hfeeder⟩ := Inputs.get_feeder_of_mem (hnames ▸ hnd) hs hbind
    exact hrk.keep hi' (e := .keepFeeder (.ofNode (.label work)) slot.name work) trivial
      (Edit.after_keepFeeder hwork hfeeder work) hne hrootk

/-- The inputs that a validation has found to close a cycle can be disconnected one by one. -/
theorem exists_repair (h : Run past m) (hi : m.idle = true) (hne : label ≠ work)
    (hroot : m.workspace.handles.nodes.get? label = some root) {todo : List (NodeId × String)}
    (ht : todo ⊆ (m.graph.validate root).cuts) :
    ∃ done n, Repair (m.graph.validate root).cuts m done n ∧ todo ⊆ done ∧
      n.workspace.handles.nodes.get? label = some root := by
  induction todo with
  | nil => exact ⟨[], m, .refl m, List.nil_subset _, hroot⟩
  | cons cut todo ih =>
    obtain ⟨id, input⟩ := cut
    obtain ⟨hc, ht⟩ := List.cons_subset.mp ht
    obtain ⟨done, n, hr, hsub, hrootn⟩ := ih ht
    obtain ⟨⟨past', h'⟩, -, hdone, hcut⟩ := hr.cut h hi
    have ha := (firm h).handles root (Table.mem_values_of_get? hroot)
    have ha' := (firm h').handles root (Table.mem_values_of_get? hrootn)
    obtain ⟨source, hissue⟩ := Report.mem_cuts.mp hc
    have honcycle := onCycle_of_mem_validate h ha hissue
    have hreach := Graph.reaches_of_cut_subset hcut hdone (firm h).bound ha
      (h.nodup_names_of_reaches ha) (firm h').bound ha' honcycle.reached
    obtain ⟨k, hrk, hrootk, hwork⟩ := hr.reach h hi hne hrootn hreach
    obtain ⟨limit, entry, last, hx, hw⟩ :=
      exists_exec_edit (hrk.cut h hi).2.1 (.disconnect (.label work) input)
    refine ⟨_, last, hrk.disconnect hwork hc hx, List.cons_subset.mpr
      ⟨List.mem_cons_self, List.subset_cons_of_subset _ hsub⟩, ?_⟩
    rw [hw]
    exact (congrArg (·.nodes.get? label) (Edit.handles_after_disconnect hwork)).trans hrootk

end Repair

/-- A validation of the second graph finds what one of the first graph finds, with an unconnected
input in the place of each cycle. -/
structure Graph.Repaired (g g' : Graph) (root : NodeId) : Prop where
  issues : (g'.validate root).issues = (g.validate root).issues.map Issue.mended
  /-- The root depends on the same nodes as before. -/
  reaches (id : NodeId) : ReflTransGen g'.Binds root id ↔ ReflTransGen g.Binds root id
  /-- None of them has died, -/
  alive (id : NodeId) (hr : ReflTransGen g.Binds root id) : g'.alive id = true
  /-- and none of them depends on itself. -/
  acyclic (id : NodeId) (hr : ReflTransGen g.Binds root id) : ¬ TransGen g'.Binds id id

/-- The inputs can be disconnected that a validation of a node has found to close a cycle, and when
they all are, with a handle of the node still there, its cycles are repaired. -/
theorem Run.repaired (h : Run past m) (hi : m.idle = true) {label : String}
    (hroot : m.workspace.handles.nodes.get? label = some root) :
    (∃ done n, Repair (m.graph.validate root).cuts m done n ∧
      (m.graph.validate root).cuts ⊆ done ∧
        n.workspace.handles.nodes.get? label = some root) ∧
    ∀ done n, Repair (m.graph.validate root).cuts m done n →
      (m.graph.validate root).cuts ⊆ done → root ∈ n.workspace.handles.nodes.values →
        m.graph.Repaired n.graph root := by
  have ha := (firm h).handles root (Table.mem_values_of_get? hroot)
  constructor
  · obtain ⟨work, hne⟩ := exists_ne label
    exact Repair.exists_repair h hi hne.symm hroot (List.Subset.refl _)
  · intro done n hr hall hroot'
    obtain ⟨⟨past', h'⟩, -, hsub, hcut⟩ := hr.cut h hi
    have hcut := hcut.congr hsub hall
    have hb := (firm h).bound
    have hb' := (firm h').bound
    have ha' := (firm h').handles root hroot'
    have hnd := h.nodup_names_of_reaches ha
    have hiff (id : NodeId) :
        ReflTransGen n.graph.Binds root id ↔ ReflTransGen m.graph.Binds root id :=
      Graph.reaches_cut_iff hcut hb ha hnd hb' ha'
    exact
      { issues := Graph.issues_cut hcut hb ha hnd hb' ha'
        reaches := hiff
        alive := fun id hreach => Graph.alive_of_reflTransGen hb' ha' ((hiff id).mpr hreach)
        acyclic := fun id hreach =>
          Graph.not_transGen_cut hcut hb ha hnd hb' ha' ((hiff id).mpr hreach) }

/-- Two sums that depend on each other, one of them also on itself. The program has a handle of the
other one only. -/
theorem Run.repaired_nested :
    ∃ past m done n, Run past m ∧ m.idle = true ∧
      m.workspace.handles.nodes.get? "outer" = some ⟨0⟩ ∧
      (m.graph.validate ⟨0⟩).issues = [.cycle ⟨1⟩ "v1" ⟨⟨0⟩, "v"⟩, .cycle ⟨1⟩ "v2" ⟨⟨1⟩, "v"⟩,
        .unconnected ⟨0⟩ "v2"] ∧
      Repair (m.graph.validate ⟨0⟩).cuts m done n ∧ m.graph.Repaired n.graph ⟨0⟩ ∧
      (n.graph.validate ⟨0⟩).issues =
        [.unconnected ⟨1⟩ "v1", .unconnected ⟨1⟩ "v2", .unconnected ⟨0⟩ "v2"] := by
  have he : Machine.start.execAll 100
      [.edit (.create "outer" .identifier .add),
        .edit (.create "inner" .identifier .add),
        .edit (.connect (.label "outer") "v1" (.output (.label "inner") "v")),
        .edit (.connect (.label "inner") "v1" (.output (.label "outer") "v")),
        .edit (.connect (.label "inner") "v2" (.output (.label "inner") "v")),
        .edit (.dropNode "inner")] = some (_, _) := rfl
  obtain ⟨⟨past, h⟩, -⟩ := Run.start.of_execAll rfl he
  obtain ⟨⟨done, n, hr, hall, hn⟩, hrepaired⟩ :=
    h.repaired rfl (show Table.get? _ "outer" = some ⟨0⟩ from rfl)
  have hg := hrepaired done n hr hall (Table.mem_values_of_get? hn)
  exact ⟨past, _, done, n, h, rfl, rfl, rfl, hr, hg, hg.issues⟩

end PullGraph

import PullGraph.Proofs.Hold
import PullGraph.Proofs.Path

/-!
# What a validation finds

The walk of a validation marks a node as it arrives, looks at the inputs, and marks it again as it
leaves. What it has left behind has been looked at, and every issue is there to be found.

* `Graph.Real`: what an issue says about the wiring that a node depends on.
* `Walk.Extends`: what a visit leaves alone. The path does not change, and nothing is taken back.
* `Graph.Noted`: an input has been looked at. `Graph.Orderly` is the invariant: all inputs of the
  nodes that the walk is done with are noted, no cycle leads through these nodes unless there is an
  issue about one, and the issues are real.
* `Graph.extends_visit`: no visit changes the path or takes anything back.
* `Graph.visit_spec`: a visit keeps the invariant, and is deep enough if no more nodes are without a
  mark.
* `Graph.real_of_mem_validate`, `Graph.mem_validate_of_unconnected`,
  `Graph.mem_validate_of_detached`, `Graph.exists_cycle_of_transGen`: what this comes to for a
  validation.
-/

namespace PullGraph

open Relation

/-- The issue is about a cycle. -/
def Issue.IsCycle : Issue → Prop
  | .cycle .. => True
  | _ => False

/-! ## Walks -/

namespace Walk

variable {walk walk' : Walk} {id other : NodeId} {m : Mark}

theorem mark?_mark :
    (walk.mark id m).mark? other = if other = id then some m else walk.mark? other := by
  unfold mark? mark
  rw [List.lookup_cons]
  by_cases h : other = id
  · simp [h]
  · have hb : (other == id) = false := by simp [h]
    simp [h, hb]

@[simp] theorem mark?_mark_self : (walk.mark id m).mark? id = some m := by simp [mark?_mark]

@[simp] theorem mark?_report (issue : Issue) : (walk.report issue).mark? id = walk.mark? id := rfl

@[simp] theorem issues_mark : (walk.mark id m).issues = walk.issues := rfl

@[simp] theorem mem_report {issue new : Issue} :
    issue ∈ (walk.report new).issues ↔ issue ∈ walk.issues ∨ issue = new := by
  simp [report]

/-- The second walk is the first one after some visits: the path is the same, and no mark and no
issue is taken back. -/
structure Extends (walk walk' : Walk) : Prop where
  visiting : ∀ id, walk'.mark? id = some .visiting ↔ walk.mark? id = some .visiting
  done : ∀ id, walk.mark? id = some .done → walk'.mark? id = some .done
  issues : walk.issues <+: walk'.issues

namespace Extends

theorem refl (walk : Walk) : walk.Extends walk :=
  ⟨fun _ => .rfl, fun _ h => h, List.prefix_rfl⟩

theorem trans {walk'' : Walk} (h : walk.Extends walk') (h' : walk'.Extends walk'') :
    walk.Extends walk'' where
  visiting id := (h'.visiting id).trans (h.visiting id)
  done id hd := h'.done id (h.done id hd)
  issues := h.issues.trans h'.issues

theorem report (walk : Walk) (issue : Issue) : walk.Extends (walk.report issue) :=
  ⟨fun _ => .rfl, fun _ h => h, List.prefix_append _ _⟩

theorem isSome_mark? (h : walk.Extends walk') (hm : (walk.mark? id).isSome = true) :
    (walk'.mark? id).isSome = true := by
  cases hid : walk.mark? id with
  | none => simp [hid] at hm
  | some mark =>
    cases mark with
    | visiting => rw [(h.visiting id).mpr hid]; rfl
    | done => rw [h.done id hid]; rfl

theorem mark?_eq_none (h : walk.Extends walk') (hm : walk'.mark? id = none) :
    walk.mark? id = none := by
  by_contra hne
  simpa [hm] using h.isSome_mark? (Option.isSome_iff_ne_none.mpr hne)

end Extends

end Walk

namespace Graph

variable (g : Graph)

/-! ## The depth of a walk -/

/-- The living nodes without a mark. -/
def blank (walk : Walk) : List NodeId := g.living.filter fun id => walk.mark? id = none

variable {g} {walk walk' : Walk} {id root : NodeId}

theorem length_blank_le (h : walk.Extends walk') :
    (g.blank walk').length ≤ (g.blank walk).length := by
  refine (List.monotone_filter_right _ fun k hk => ?_).length_le
  exact decide_eq_true (h.mark?_eq_none (of_decide_eq_true hk))

theorem length_blank_start_le : (g.blank .start).length ≤ g.nodes.size := by
  refine Nat.le_trans (List.length_filter_le _ _) (Nat.le_trans (List.length_filter_le _ _) ?_)
  simp

theorem mem_blank (ha : g.alive id = true) (hm : walk.mark? id = none) : id ∈ g.blank walk :=
  List.mem_filter.mpr ⟨g.mem_living.mpr ha, decide_eq_true hm⟩

/-- A mark for a node that had none leaves fewer nodes without one. -/
theorem length_blank_mark_lt (ha : g.alive id = true) (hm : walk.mark? id = none) (m : Mark) :
    (g.blank (walk.mark id m)).length < (g.blank walk).length := by
  have h : g.blank (walk.mark id m) = (g.blank walk).filter (· ≠ id) := by
    rw [blank, blank, List.filter_filter]
    refine List.filter_congr fun k _ => ?_
    by_cases hk : k = id <;> simp [Walk.mark?_mark, hk]
  rw [h]
  exact List.length_filter_lt_length_iff_exists.mpr ⟨id, mem_blank ha hm, by simp⟩

/-! ## The invariant -/

variable (g)

/-- What an issue says of the nodes that `root` depends on. -/
inductive Real (root : NodeId) : Issue → Prop
  /-- The source of a binding depends on the node that is bound to it. -/
  | cycle {id feeder : NodeId} {slot : Slot} {s : Socket} : ReflTransGen g.Binds root id →
      slot ∈ (g.inputs id).slots → slot.binding = some ⟨s, some feeder⟩ →
      ReflTransGen g.Binds feeder id → Real root (.cycle id slot.name ⟨feeder, s.name⟩)
  | unconnected {id : NodeId} {slot : Slot} : ReflTransGen g.Binds root id →
      slot ∈ (g.inputs id).slots → slot.binding = none → Real root (.unconnected id slot.name)
  | detached {id : NodeId} {slot : Slot} {s : Socket} : ReflTransGen g.Binds root id →
      slot ∈ (g.inputs id).slots → slot.binding = some ⟨s, none⟩ → g.cell? s = none →
      Real root (.detached id slot.name s.name)

/-- An input has been looked at. -/
def Noted (walk : Walk) (id : NodeId) (slot : Slot) : Prop :=
  match slot.binding with
  | none => .unconnected id slot.name ∈ walk.issues
  | some ⟨s, none⟩ => (g.cell? s).isSome = true ∨ .detached id slot.name s.name ∈ walk.issues
  | some ⟨s, some feeder⟩ => (walk.mark? feeder).isSome = true ∧
      (walk.mark? feeder = some .done ∨ .cycle id slot.name ⟨feeder, s.name⟩ ∈ walk.issues)

/-- The walk has left nothing out behind it, and has found nothing that is not there. -/
structure Orderly (root : NodeId) (walk : Walk) : Prop where
  noted : ∀ id, walk.mark? id = some .done → ∀ slot ∈ (g.inputs id).slots, g.Noted walk id slot
  acc : (∀ issue ∈ walk.issues, ¬ issue.IsCycle) → ∀ id, walk.mark? id = some .done →
    Acc (fun other id => g.Binds id other) id
  real : ∀ issue ∈ walk.issues, g.Real root issue

variable {g}

theorem Noted.extends {slot : Slot} (h : g.Noted walk id slot) (he : walk.Extends walk') :
    g.Noted walk' id slot := by
  unfold Noted at h ⊢
  split at h
  · exact he.issues.subset h
  · exact h.imp_right fun hm => he.issues.subset hm
  · exact ⟨he.isSome_mark? h.1, h.2.imp (he.done _) fun hm => he.issues.subset hm⟩

theorem Orderly.start (root : NodeId) : g.Orderly root .start :=
  ⟨fun _ h => (Option.some_ne_none _ h.symm).elim, fun _ _ h => (Option.some_ne_none _ h.symm).elim,
    fun _ h => (List.not_mem_nil h).elim⟩

theorem Orderly.mark_visiting (h : g.Orderly root walk) (hm : walk.mark? id = none) :
    g.Orderly root (walk.mark id .visiting) := by
  have hdone (k : NodeId) (hk : (walk.mark id .visiting).mark? k = some .done) :
      walk.mark? k = some .done := by
    rw [Walk.mark?_mark] at hk
    split at hk
    · cases hk
    · exact hk
  refine ⟨fun k hk slot hs => ?_, fun hc k hk => h.acc hc k (hdone k hk), h.real⟩
  have hn := h.noted k (hdone k hk) slot hs
  unfold Noted at hn ⊢
  split at hn
  · exact hn
  · exact hn
  · next feeder hb =>
    have hne : feeder ≠ id := fun e => by simp [e, hm] at hn
    simpa only [Walk.mark?_mark, if_neg hne, Walk.issues_mark] using hn

theorem Orderly.report (h : g.Orderly root walk) {issue : Issue} (hr : g.Real root issue) :
    g.Orderly root (walk.report issue) where
  noted id hid slot hs := (h.noted id hid slot hs).extends (.report walk issue)
  acc hc := h.acc fun i hi => hc i (Walk.mem_report.mpr (.inl hi))
  real i hi := (Walk.mem_report.mp hi).elim (h.real i) fun e => e ▸ hr

/-- A node may be left when all its inputs have been looked at. -/
theorem Orderly.mark_done (h : g.Orderly root walk) (hm : walk.mark? id = some .visiting)
    (hn : ∀ slot ∈ (g.inputs id).slots, g.Noted walk id slot) :
    g.Orderly root (walk.mark id .done) := by
  have hmono {k : NodeId} {slot : Slot} (hs : g.Noted walk k slot) :
      g.Noted (walk.mark id .done) k slot := by
    unfold Noted at hs ⊢
    split at hs
    · exact hs
    · exact hs
    · simp only [Walk.mark?_mark, Walk.issues_mark]
      split
      · exact ⟨rfl, .inl rfl⟩
      · exact hs
  refine ⟨fun k hk slot hs => ?_, fun hc k hk => ?_, h.real⟩
  · rw [Walk.mark?_mark] at hk
    split at hk
    · next e => subst e; exact hmono (hn slot hs)
    · exact hmono (h.noted k hk slot hs)
  · rw [Walk.mark?_mark] at hk
    split at hk
    · next e =>
      -- Without an issue about a cycle the walk was done with all feeders before.
      subst e
      refine Acc.intro _ fun feeder hb => ?_
      obtain ⟨slot, hs, hf⟩ := List.mem_filterMap.mp hb.2
      have hs' := hn slot hs
      obtain ⟨⟨s, f⟩, hbind, rfl⟩ := Option.bind_eq_some_iff.mp hf
      simp only [Noted, hbind] at hs'
      exact h.acc hc feeder (hs'.2.resolve_right fun hi => hc _ hi trivial)
    · exact h.acc hc k hk

/-! ## Visits -/

theorem binds_of_slot {feeder : NodeId} {slot : Slot} {s : Socket} (ha : g.alive id = true)
    (hs : slot ∈ (g.inputs id).slots) (hb : slot.binding = some ⟨s, some feeder⟩) :
    g.Binds id feeder :=
  ⟨ha, List.mem_filterMap.mpr ⟨slot, hs, by rw [hb]; rfl⟩⟩

section Extends

variable {visit : NodeId → Walk → Walk}
  (hv : ∀ (id : NodeId) (walk : Walk), walk.mark? id = none → walk.Extends (visit id walk))

include hv

theorem extends_look (id : NodeId) (walk : Walk) (slot : Slot) :
    walk.Extends (g.look visit id walk slot) := by
  unfold look
  split
  · exact .report _ _
  · split
    · exact .refl _
    · exact .report _ _
  · split
    · exact .report _ _
    · exact .refl _
    · next hm => exact hv _ _ hm

theorem extends_foldl_look (id : NodeId) (walk : Walk) (slots : List Slot) :
    walk.Extends (slots.foldl (g.look visit id) walk) := by
  induction slots generalizing walk with
  | nil => exact .refl _
  | cons slot slots ih => exact (extends_look hv id walk slot).trans (ih _)

end Extends

/-- A visit leaves the path and what is behind it alone, however deep it goes. -/
theorem extends_visit (depth : Nat) (hm : walk.mark? id = none) :
    walk.Extends (g.visit depth id walk) := by
  induction depth generalizing id walk with
  | zero => exact .refl _
  | succ depth ih =>
    have he : (walk.mark id .visiting).Extends
        ((g.inputs id).slots.foldl (g.look (g.visit depth) id) (walk.mark id .visiting)) :=
      extends_foldl_look (fun _ _ h => ih h) id _ _
    refine ⟨fun k => ?_, fun k hk => ?_, he.issues⟩
    · rw [visit, Walk.mark?_mark]
      split
      · next e => simp [e, hm]
      · next hne => rw [he.visiting, Walk.mark?_mark, if_neg hne]
    · rw [visit, Walk.mark?_mark]
      split
      · rfl
      · next hne => exact he.done k (by rw [Walk.mark?_mark, if_neg hne, hk])

/-- What the walk has to be like for a visit of a node, as far as the node matters: `root` depends
on it, and so does every node on the path. -/
structure Within (g : Graph) (root : NodeId) (walk : Walk) (id : NodeId) : Prop where
  alive : g.alive id = true
  root : ReflTransGen g.Binds root id
  path : ∀ k, walk.mark? k = some .visiting → ReflTransGen g.Binds k id

theorem Within.extends (h : g.Within root walk id) (he : walk.Extends walk') :
    g.Within root walk' id :=
  ⟨h.alive, h.root, fun k hk => h.path k ((he.visiting k).mp hk)⟩

/-- A visit that is deep enough keeps the invariant, and is then done with the node. -/
def Visits (g : Graph) (root : NodeId) (depth : Nat) (visit : NodeId → Walk → Walk) : Prop :=
  ∀ id walk, g.Within root walk id → walk.mark? id = none → (g.blank walk).length ≤ depth →
    g.Orderly root walk → g.Orderly root (visit id walk) ∧ (visit id walk).mark? id = some .done

section Look

variable {depth : Nat} (hb : ∀ id other, g.Binds id other → g.alive other = true)
  (hv : g.Visits root depth (g.visit depth))

include hb hv

/-- The look at one input. -/
theorem look_spec {slot : Slot} (hs : slot ∈ (g.inputs id).slots) (hw : g.Within root walk id)
    (hd : (g.blank walk).length ≤ depth) (ho : g.Orderly root walk) :
    g.Orderly root (g.look (g.visit depth) id walk slot) ∧
      g.Noted (g.look (g.visit depth) id walk slot) id slot := by
  rcases hbind : slot.binding with _ | ⟨s, _ | feeder⟩
  · simp only [look, Noted, hbind]
    exact ⟨ho.report (.unconnected hw.root hs hbind), Walk.mem_report.mpr (.inr rfl)⟩
  · simp only [look, Noted, hbind]
    cases hc : g.cell? s with
    | some v => exact ⟨ho, .inl rfl⟩
    | none =>
      exact ⟨ho.report (.detached hw.root hs hbind hc), .inr (Walk.mem_report.mpr (.inr rfl))⟩
  · simp only [look, Noted, hbind]
    have hbinds := binds_of_slot hw.alive hs hbind
    -- What is still being visited is on the path to this node, so that the edge closes a cycle.
    cases hm : walk.mark? feeder with
    | some mark =>
      cases mark with
      | visiting =>
        refine ⟨ho.report (.cycle hw.root hs hbind (hw.path feeder hm)), ?_,
          .inr (Walk.mem_report.mpr (.inr rfl))⟩
        simp [hm]
      | done => exact ⟨ho, by simp [hm], .inl hm⟩
    | none =>
      have hw' : g.Within root walk feeder :=
        ⟨hb _ _ hbinds, hw.root.tail hbinds, fun k hk => (hw.path k hk).tail hbinds⟩
      obtain ⟨ho', hdone⟩ := hv feeder walk hw' hm hd ho
      exact ⟨ho', by simp [hdone], .inl hdone⟩

/-- The look at some inputs, one after the other. -/
theorem foldl_look_spec {slots : List Slot} (hs : ∀ slot ∈ slots, slot ∈ (g.inputs id).slots)
    (hw : g.Within root walk id) (hd : (g.blank walk).length ≤ depth) (ho : g.Orderly root walk) :
    g.Orderly root (slots.foldl (g.look (g.visit depth) id) walk) ∧
      ∀ slot ∈ slots, g.Noted (slots.foldl (g.look (g.visit depth) id) walk) id slot := by
  induction slots generalizing walk with
  | nil => exact ⟨ho, by simp⟩
  | cons slot slots ih =>
    have hvis (k : NodeId) (walk : Walk) (hm : walk.mark? k = none) :
        walk.Extends (g.visit depth k walk) := extends_visit depth hm
    have he : walk.Extends (g.look (g.visit depth) id walk slot) := extends_look hvis id walk slot
    obtain ⟨ho', hn⟩ := look_spec hb hv (hs slot List.mem_cons_self) hw hd ho
    obtain ⟨ho'', hn'⟩ := ih (fun s hm => hs s (List.mem_cons_of_mem _ hm)) (hw.extends he)
      (Nat.le_trans (length_blank_le he) hd) ho'
    refine ⟨ho'', fun s hm => ?_⟩
    rcases List.mem_cons.mp hm with rfl | hm
    · exact hn.extends (extends_foldl_look hvis id _ slots)
    · exact hn' s hm

end Look

/-- A visit is as it should be wherever the depth is enough for the nodes without a mark. -/
theorem visit_spec (hb : ∀ id other, g.Binds id other → g.alive other = true) (root : NodeId)
    (depth : Nat) : g.Visits root depth (g.visit depth) := by
  induction depth with
  | zero =>
    intro id walk hw hm hd _
    have hpos := List.length_pos_of_mem (mem_blank hw.alive hm)
    omega
  | succ depth ih =>
    intro id walk hw hm hd ho
    have hd' : (g.blank (walk.mark id .visiting)).length ≤ depth := by
      have := length_blank_mark_lt hw.alive hm .visiting
      omega
    have hw' : g.Within root (walk.mark id .visiting) id := by
      refine ⟨hw.alive, hw.root, fun k hk => ?_⟩
      rw [Walk.mark?_mark] at hk
      split at hk
      · next e => exact e ▸ .refl
      · exact hw.path k hk
    obtain ⟨ho', hn⟩ := foldl_look_spec hb ih (fun _ hs => hs) hw' hd' (ho.mark_visiting hm)
    have he : (walk.mark id .visiting).Extends
        ((g.inputs id).slots.foldl (g.look (g.visit depth) id) (walk.mark id .visiting)) :=
      extends_foldl_look (fun _ _ h => extends_visit depth h) id _ _
    have hvis := (he.visiting id).mpr Walk.mark?_mark_self
    exact ⟨ho'.mark_done hvis hn, Walk.mark?_mark_self⟩

/-! ## Validations -/

section Validate

variable (hb : ∀ id other, g.Binds id other → g.alive other = true) (ha : g.alive root = true)

include hb ha

/-- A validation is done with the node that it is about, and has no path left. -/
theorem validate_spec :
    g.Orderly root (g.visit g.nodes.size root .start) ∧
      (g.visit g.nodes.size root .start).mark? root = some .done ∧
        ∀ id, (g.visit g.nodes.size root .start).mark? id ≠ some .visiting := by
  obtain ⟨ho, hdone⟩ := visit_spec hb root g.nodes.size root .start
    ⟨ha, .refl, fun k hk => by cases hk⟩ rfl length_blank_start_le (.start root)
  refine ⟨ho, hdone, fun id hid => ?_⟩
  cases ((extends_visit _ rfl).visiting id).mp hid

/-- It is done with all nodes that this one depends on. -/
theorem mark?_of_reaches {id : NodeId} (hr : ReflTransGen g.Binds root id) :
    (g.visit g.nodes.size root .start).mark? id = some .done := by
  obtain ⟨ho, hroot, hpath⟩ := validate_spec hb ha
  induction hr with
  | refl => exact hroot
  | @tail k feeder _ hbinds ih =>
    obtain ⟨slot, hs, hf⟩ := List.mem_filterMap.mp hbinds.2
    obtain ⟨⟨s, f⟩, hbind, rfl⟩ := Option.bind_eq_some_iff.mp hf
    have hn := ho.noted k ih slot hs
    simp only [Noted, hbind] at hn
    obtain ⟨mark, hmark⟩ := Option.isSome_iff_exists.mp hn.1
    cases mark with
    | visiting => exact absurd hmark (hpath feeder)
    | done => exact hmark

/-- Every issue is real. -/
theorem real_of_mem_validate {issue : Issue} (hi : issue ∈ (g.validate root).issues) :
    g.Real root issue :=
  (validate_spec hb ha).1.real issue hi

variable {slot : Slot} (hr : ReflTransGen g.Binds root id) (hs : slot ∈ (g.inputs id).slots)

include hr in
theorem noted_of_reaches (hs : slot ∈ (g.inputs id).slots) :
    g.Noted (g.visit g.nodes.size root .start) id slot :=
  (validate_spec hb ha).1.noted id (mark?_of_reaches hb ha hr) slot hs

include hr hs in
/-- Every unconnected input that the node depends on is reported. -/
theorem mem_validate_of_unconnected (h : slot.binding = none) :
    .unconnected id slot.name ∈ (g.validate root).issues := by
  have hn := noted_of_reaches hb ha hr hs
  simp only [Noted, h] at hn
  exact hn

include hr hs in
/-- So is every input that is bound to an unset socket without a node. -/
theorem mem_validate_of_detached {s : Socket} (h : slot.binding = some ⟨s, none⟩)
    (hc : g.cell? s = none) : .detached id slot.name s.name ∈ (g.validate root).issues := by
  have hn := noted_of_reaches hb ha hr hs
  simp only [Noted, h, hc] at hn
  exact hn.resolve_left Bool.false_ne_true

include hr in
/-- If the node depends on a node that depends on itself, there is an issue about a cycle. -/
theorem exists_cycle_of_transGen (hc : TransGen g.Binds id id) :
    ∃ issue ∈ (g.validate root).issues, issue.IsCycle := by
  by_contra hno
  have hacc := (validate_spec hb ha).1.acc (fun issue hi hcyc => hno ⟨issue, hi, hcyc⟩) id
    (mark?_of_reaches hb ha hr)
  exact not_transGen_of_acc hacc hc

end Validate

end Graph

end PullGraph

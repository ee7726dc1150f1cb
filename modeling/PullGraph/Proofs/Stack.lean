import Mathlib.Data.List.Nodup
import Mathlib.Data.List.Perm.Subperm
import PullGraph.Proofs.Run

/-!
# Computes in progress

A node has a mark while it computes, which is set when the compute begins and cleared on every way
out of it. Reads that would start the compute again are refused by the mark.

* `Machine.Mirrored`: the marks in the graph are those of the computes in progress. Edits keep the
  marks, a compute that begins sets its own, and one that ends clears it (`Machine.Mirrored.turn`).
  `Graph.spare` counts the living nodes without one.
* `Machine.Ends.exists_last`: when a step has its result, the computes are those it began with.
* `Machine.move_cases`: what a move makes of the graph and of the computes in progress.
* `Nested`: beginnings and ends of computes that match like brackets.
* `Run.bracketed`: all of this at every moment of every run.
-/

namespace PullGraph

/-! ## Marks of computes -/

namespace Graph

/-- Whether the record of a node, dead or alive, has a mark that the node is computing. -/
def busy (g : Graph) (id : NodeId) : Bool := (g.node? id).any (·.computing)

variable {g g' : Graph} {id other : NodeId}

theorem busy_congr (h : (g'.node? id).map (·.computing) = (g.node? id).map (·.computing)) :
    g'.busy id = g.busy id := by
  simp only [busy]
  revert h
  cases g'.node? id <;> cases g.node? id <;> simp

theorem computing_eq : g.computing id = (g.alive id && g.busy id) := by
  simp only [computing, alive, busy]
  cases g.node? id <;> simp

theorem busy_enter (h : g.alive id = true) :
    (g.enter id).busy other = (decide (other = id) || g.busy other) := by
  simp only [alive] at h
  simp only [busy, enter, node?_update]
  by_cases e : other = id
  · subst e
    cases hn : g.node? other with
    | none => simp [hn] at h
    | some node => simp
  · simp [e]

theorem busy_leave : (g.leave id).busy other = (decide (other ≠ id) && g.busy other) := by
  simp only [busy, leave, node?_update]
  by_cases e : other = id
  · subst e; cases g.node? other <;> simp
  · simp [e]

@[simp] theorem busy_fill (s : Socket) (v : Value) : (g.fill s v).busy id = g.busy id :=
  busy_congr (map_node?_update (fun _ => by rfl) id)

theorem busy_eq_false_of_answer? {s : Socket} (h : g.answer? s = none) : g.busy s.owner = false := by
  obtain ⟨-, ha, hc⟩ := answer?_eq_none_iff.mp h
  rwa [computing_eq, ha, Bool.true_and] at hc

theorem nodup_living (g : Graph) : g.living.Nodup :=
  (List.nodup_range.map fun _ _ e => NodeId.mk.inj e).filter _

/-- How many living nodes are not computing. -/
def spare (g : Graph) : Nat := (g.living.filter fun id => !g.computing id).length

/-- Nodes that are among the living with one property are no more than all of them. -/
theorem length_filter_living_le {p q : NodeId → Bool}
    (h : ∀ id, g'.alive id = true → p id = true → g.alive id = true ∧ q id = true) :
    (g'.living.filter p).length ≤ (g.living.filter q).length := by
  refine (List.subperm_of_subset (g'.nodup_living.filter _) fun id hid => ?_).length_le
  obtain ⟨hl, hp⟩ := List.mem_filter.mp hid
  obtain ⟨ha, hq⟩ := h id (g'.mem_living.mp hl) hp
  exact List.mem_filter.mpr ⟨g.mem_living.mpr ha, hq⟩

/-- Nodes are no more spare for what is neither a life nor a mark. -/
theorem spare_le (ha : ∀ id, g'.alive id = g.alive id) (hb : ∀ id, g'.busy id = g.busy id) :
    g'.spare ≤ g.spare := by
  refine length_filter_living_le fun id hid hc => ⟨ha id ▸ hid, ?_⟩
  rwa [computing_eq, ha, hb, ← computing_eq] at hc

/-- A node that starts to compute is no longer spare. -/
theorem spare_enter_lt {s : Socket} (h : g.answer? s = none) : (g.enter s.owner).spare < g.spare := by
  obtain ⟨-, hal, hc⟩ := answer?_eq_none_iff.mp h
  have hle : (g.enter s.owner).spare ≤
      (g.living.filter fun id => decide (id ≠ s.owner) && !g.computing id).length := by
    refine length_filter_living_le fun id hid hcomp => ?_
    rw [alive_enter] at hid
    rw [computing_eq, alive_enter, busy_enter hal, hid] at hcomp
    rw [computing_eq, hid]
    exact ⟨rfl, by simpa using hcomp⟩
  refine Nat.lt_of_le_of_lt hle ?_
  rw [← List.filter_filter]
  exact List.length_filter_lt_length_iff_exists.mpr
    ⟨s.owner, List.mem_filter.mpr ⟨g.mem_living.mpr hal, by simp [hc]⟩, by simp⟩

@[simp] theorem busy_release (outside : List NodeId) : (g.release outside).busy id = g.busy id :=
  busy_congr (g.map_node?_release (fun _ => by rfl) outside id)

end Graph

namespace Effect

variable {scope : Scope} {w w' : Workspace} {write : Option Write} {id : NodeId}

theorem busy_eq (h : Effect scope w write w') (id : NodeId) : w'.graph.busy id = w.graph.busy id := by
  cases h with
  | filled => exact Graph.busy_congr (Graph.map_node?_update (fun _ => by rfl) id)
  | bound => exact Graph.busy_congr (Graph.map_node?_update (fun _ => by rfl) id)
  | created | numbered =>
    change (Graph.push _ _).busy id = _
    simp only [Graph.busy, Graph.node?_push]
    split
    · next e => subst e; simp [Node.fresh]
    · rfl
  | _ => rfl

/-- A change ends no life. -/
theorem alive_of_alive (h : Effect scope w write w') (ha : w.graph.alive id = true) :
    w'.graph.alive id = true := by
  cases h with
  | filled => rw [← ha]; exact Graph.alive_fill _ _ _ _
  | bound => rw [← ha]; exact Graph.alive_rewire _ _ _ _
  | created | numbered =>
    have hne : id ≠ w.graph.nextId := by
      rintro rfl
      simp [Graph.alive] at ha
    change (Graph.push _ _).alive id = true
    simpa only [Graph.alive, Graph.node?_push, hne, if_false] using ha
  | _ => exact ha

end Effect

/-! ## Marks and computes agree -/

namespace Machine

variable {m m' : Machine}

theorem mem_holds_of_mem_stack {id : NodeId} (h : id ∈ m.stack) : id ∈ m.holds := by
  obtain ⟨s, hs, rfl⟩ := List.mem_map.mp h
  obtain ⟨f, hf, rfl⟩ := List.mem_map.mp hs
  exact List.mem_append_right _ (List.mem_flatMap.mpr ⟨f, hf, List.mem_cons_self⟩)

/-- The marks in the graph are those of the computes in progress, whose nodes are distinct and
alive. -/
structure Mirrored (m : Machine) : Prop where
  nodup : m.stack.Nodup
  alive : ∀ id ∈ m.stack, m.graph.alive id = true
  busy : ∀ id, m.graph.busy id = true ↔ id ∈ m.stack

theorem Mirrored.computing (h : m.Mirrored) (id : NodeId) :
    m.graph.computing id = true ↔ id ∈ m.stack := by
  rw [Graph.computing_eq, Bool.and_eq_true, h.busy]
  exact ⟨And.right, fun hid => ⟨h.alive id hid, hid⟩⟩

theorem stack_of_idle (h : m.idle = true) : m.stack = [] := by
  simp only [stack, wanted, (idle_cases h).2.1, List.map_nil]

theorem Mirrored.settle (h : m.Mirrored) : m.settle.Mirrored where
  nodup := h.nodup
  alive id hid := by
    have hh : id ∈ m.workspace.handles.holds ++ m.holds :=
      List.mem_append_right _ (mem_holds_of_mem_stack hid)
    rw [graph_settle, Graph.alive_release_of_mem _ hh]
    exact h.alive id hid
  busy id := by
    rw [graph_settle, Graph.busy_release]
    exact h.busy id

theorem Mirrored.congr (h : m.Mirrored) (hw : m'.wanted = m.wanted)
    (ha : ∀ id, m.graph.alive id = true → m'.graph.alive id = true)
    (hb : ∀ id, m'.graph.busy id = m.graph.busy id) : m'.Mirrored := by
  have hs : m'.stack = m.stack := stack_of_wanted hw
  refine ⟨hs ▸ h.nodup, fun id hid => ha id (h.alive id (hs ▸ hid)), fun id => ?_⟩
  rw [hs, ← h.busy, hb]

theorem Mirrored.effect (h : m.Mirrored) {scope : Scope} {write : Option Write}
    (hw : m'.wanted = m.wanted) (he : Effect scope m.workspace write m'.workspace) : m'.Mirrored :=
  h.congr hw (fun _ ha => he.alive_of_alive ha) fun id => he.busy_eq id

theorem Mirrored.turn (h : m.Mirrored) (ht : Turn m m') : m'.Mirrored := by
  -- Edits leave the marks alone. A compute that begins has no mark yet, and the one that ends is
  -- the innermost, whose mark stands for no other.
  obtain ⟨hw, he⟩ | ⟨s, holding, -, ha, hw, he⟩ | ⟨s, hw, he, -⟩ := ht.workspace_cases
  · exact h.effect hw he
  · obtain ⟨-, hal, hc⟩ := Graph.answer?_eq_none_iff.mp ha
    have hs : m'.stack = s.owner :: m.stack := stack_of_wanted_cons hw
    have hg : m'.graph = m.graph.enter s.owner := congrArg Workspace.graph he
    have hn : s.owner ∉ m.stack := fun hs => by
      rw [(h.computing _).mpr hs] at hc
      cases hc
    refine ⟨hs ▸ List.nodup_cons.mpr ⟨hn, h.nodup⟩, fun id hid => ?_, fun id => ?_⟩
    · rw [hg, Graph.alive_enter]
      rcases List.mem_cons.mp (hs ▸ hid) with rfl | hid
      · exact hal
      · exact h.alive id hid
    · rw [hs, hg, Graph.busy_enter hal, Bool.or_eq_true, decide_eq_true_iff, h.busy, List.mem_cons]
  · have hs : m.stack = s.owner :: m'.stack := stack_of_wanted_cons hw
    have hg : m'.graph = m.graph.leave s.owner := congrArg Workspace.graph he
    obtain ⟨hn, hnd⟩ := List.nodup_cons.mp (hs ▸ h.nodup)
    refine ⟨hnd, fun id hid => ?_, fun id => ?_⟩
    · rw [hg, Graph.alive_leave]
      exact h.alive id (hs ▸ List.mem_cons_of_mem _ hid)
    · rw [hg, Graph.busy_leave, Bool.and_eq_true, decide_eq_true_iff, h.busy, hs, List.mem_cons]
      constructor
      · rintro ⟨hne, rfl | hid⟩
        · exact absurd rfl hne
        · exact hid
      · intro hid
        exact ⟨fun e => hn (e ▸ hid), .inr hid⟩

theorem mirrored {past : List Machine} (h : Run past m) : m.Mirrored :=
  h.turns ⟨List.nodup_nil, by simp [stack, wanted, start], fun id => by
    simp [stack, wanted, start, Graph.busy, graph, Workspace.empty, Graph.empty, Graph.node?]⟩
    (fun _ _ ih ht => (ih.turn ht).settle) fun _ _ ih _ => ⟨ih.nodup, ih.alive, ih.busy⟩

/-- Where nothing is left to do, no node computes. -/
theorem busy_of_idle {past : List Machine} (h : Run past m) (hi : m.idle = true) (id : NodeId) :
    m.graph.busy id = false := by
  rw [← Bool.not_eq_true, (mirrored h).busy, stack_of_idle hi]
  exact List.not_mem_nil

theorem computing_of_idle {past : List Machine} (h : Run past m) (hi : m.idle = true)
    (id : NodeId) : m.graph.computing id = false := by
  rw [Graph.computing_eq, busy_of_idle h hi, Bool.and_false]

/-! ## Steps end where they began -/

/-- A refusal ends the compute that the step is part of, or none. -/
theorem stack_conclude (action : Action) (attempt : Bool) (result : Result) :
    (m.conclude action attempt result).stack = m.stack ∨
      attempt = false ∧ (∃ e, result = .error (.graph e)) ∧
        (m.conclude action attempt result).stack = m.stack.tail := by
  cases result with
  | ok reply =>
    rw [conclude_ok]
    exact .inl (m.stack_setTask _)
  | error e =>
    obtain hc | ⟨ha, err, f, rest, rfl, hf, hc⟩ := conclude_error (m := m) action attempt e
    · rw [hc]
      exact .inl (m.stack_setTask _)
    · rw [hc]
      exact .inr ⟨ha, ⟨err, rfl⟩, by simp only [stack, wanted, hf, List.map_cons, List.tail_cons]⟩

theorem past_conclude {depth : Nat} (h : m.frames.length = depth) (action : Action)
    (attempt : Bool) (result : Result) :
    (m.conclude action attempt result).settle.Past depth := by
  have hset (t : Task) : (m.setTask t).frames.length = depth := by rw [length_frames_setTask, h]
  cases result with
  | ok reply =>
    rw [conclude_ok]
    exact .inr ⟨hset _, rfl⟩
  | error e =>
    obtain hc | ⟨-, err, f, rest, -, hf, hc⟩ := conclude_error (m := m) action attempt e
    · rw [hc]
      exact .inr ⟨hset _, rfl⟩
    · rw [hc]
      refine .inl ?_
      rw [← h, hf]
      exact Nat.lt_succ_self rest.length

/-- Where a step is concluded it is over. -/
theorem Leads.eq_conclude {depth : Nat} {n last : Machine} {action : Action} {attempt : Bool}
    {result : Result} (h : Leads (fun n => ¬ n.Past depth) n m')
    (hn : n = (last.conclude action attempt result).settle) (hl : last.frames.length = depth) :
    m' = (last.conclude action attempt result).settle := by
  have hp : n.Past depth := hn ▸ past_conclude hl action attempt result
  rw [h.eq_of_not (fun h => h hp), hn]

section Last

variable {past : List Machine} {action : Action} {attempt : Bool} {rest : List Instr}

/-- A read that has its outcome is concluded by the next move. -/
theorem exists_last_of_returned (h : Run past m) {outcome : Except GraphError Value}
    (hc : m.control = .returned outcome) (ht : m.task.todo = .act action attempt :: rest) :
    ∃ (result : Result) (last : Machine), m.move = (last.conclude action attempt result).settle ∧
      last.frames.length = m.frames.length ∧ last.stack = m.stack ∧ last.Mirrored := by
  cases outcome with
  | error e =>
    exact ⟨.error (.graph e), m, move_of_failure hc ht, rfl, rfl, mirrored h⟩
  | ok v =>
    obtain ⟨t, hk⟩ := exists_keep (m := m) action v
    have hm := hk ▸ move_of_value hc ht
    refine ⟨.ok (.value v), m.setTask t, hm, m.length_frames_setTask t, m.stack_setTask t, ?_⟩
    exact (mirrored h).congr (m.wanted_setTask t) (by simp) (by simp)

/-- A step that reads no socket is concluded at once. -/
theorem exists_last_of_begin (h : Run past m) (hr : m.control = .running)
    (ht : m.task.todo = .act action attempt :: rest)
    (hb : ∀ s holding, action.begin m.scope m.workspace ≠ .ok (.demand s holding)) :
    ∃ (result : Result) (last : Machine), m.move = (last.conclude action attempt result).settle ∧
      last.frames.length = m.frames.length ∧ last.stack = m.stack ∧ last.Mirrored := by
  cases e : action.begin m.scope m.workspace with
  | error err =>
    exact ⟨.error err, m, move_of_error hr ht e, rfl, rfl, mirrored h⟩
  | ok progress =>
    cases progress with
    | demand s holding => exact absurd e (hb s holding)
    | done reply w records =>
      have heff := effect_of_begin hr ht e
      refine ⟨.ok reply, _, move_of_done hr ht e, ?_, ?_, ?_⟩
      · rw [tellAll_eq]
      · rw [tellAll_eq]; rfl
      · rw [tellAll_eq]
        exact (mirrored h).effect rfl heff

/-- When a step has its result, the same computes are in progress as when it began. -/
theorem Ends.exists_last (h : Run past m) (he : m.Ends m') :
    ∃ action attempt rest, m.task.todo = .act action attempt :: rest ∧
      ∃ (result : Result) (last : Machine), m' = (last.conclude action attempt result).settle ∧
        last.stack = m.stack ∧ last.Mirrored := by
  obtain ⟨hr, ⟨action, attempt, rest, ht⟩, hl, hp⟩ := he
  refine ⟨action, attempt, rest, ht, ?_⟩
  by_cases hb : ∃ s holding, action.begin m.scope m.workspace = .ok (.demand s holding)
  · obtain ⟨s, holding, hb⟩ := hb
    have hd := demands_of_begin hr ht hb
    have hend : m'.frames.length ≤ m.frames.length := by
      rcases hp with hp | ⟨hp, -⟩
      · exact Nat.le_of_lt hp
      · exact Nat.le_of_eq hp
    -- The read has its outcome at a moment `k`, from which one more move ends the step.
    obtain ⟨k, hk, hs, ⟨outcome, hc⟩, hl⟩ := hd.exists_return hl hend
    obtain ⟨past', hrun, -⟩ := h.move.leads hk
    have hklen : k.frames.length = m.frames.length := by rw [hs.1, length_frames_setTask]
    have hkt : k.task.todo = .act action attempt :: rest := by rw [hs.task_eq, task_setTask, ht]
    obtain ⟨result, last, hm, hlast, hstack, hmir⟩ := exists_last_of_returned hrun hc hkt
    refine ⟨result, last, ?_, by rw [hstack, hs.stack_eq, stack_setTask], hmir⟩
    cases hl with
    | refl =>
      rcases hp with hp | ⟨-, hp⟩
      · omega
      · rw [hc] at hp; cases hp
    | move _ hl => exact hl.eq_conclude hm (hlast.trans hklen)
  · obtain ⟨result, last, hm, hlast, hstack, hmir⟩ :=
      exists_last_of_begin h hr ht fun s holding e => hb ⟨s, holding, e⟩
    exact ⟨result, last, hl.eq_conclude hm hlast, hstack, hmir⟩

end Last

end Machine

/-! ## Beginnings and ends of computes -/

/-- The beginning or the end of a compute of a node. -/
inductive Span where
  | entered (id : NodeId)
  | left (id : NodeId)
  deriving DecidableEq, Repr

/-- The compute that the next move starts or ends. -/
def Machine.span? (m : Machine) : Option Span :=
  if m.stack.length < m.move.stack.length then m.move.stack.head?.map .entered
  else if m.move.stack.length < m.stack.length then m.stack.head?.map .left
  else none

namespace Machine

variable {m : Machine} {id : NodeId}

theorem span?_of_stack_eq (h : m.move.stack = m.stack) : m.span? = none := by
  simp [span?, h]

theorem span?_of_entered (h : m.move.stack = id :: m.stack) : m.span? = some (.entered id) := by
  simp [span?, h]

theorem span?_of_left (h : m.stack = id :: m.move.stack) : m.span? = some (.left id) := by
  have hlt : ¬ m.stack.length < m.move.stack.length := by
    rw [h, List.length_cons]
    omega
  rw [span?, if_neg hlt, h]
  simp

/-- A move has the effect of an edit, or a compute begins or ends at it, and then nodes die. -/
theorem move_cases (m : Machine) : ∃ (w : Workspace) (outside : List NodeId),
    m.move.graph = w.graph.release outside ∧
      ((m.span? = none ∧ m.move.stack = m.stack ∧ Effect m.scope m.workspace m.write? w) ∨
      (∃ s holding, m.span? = some (.entered s.owner) ∧ m.move.stack = s.owner :: m.stack ∧
        m.Demands s holding ∧ m.graph.answer? s = none ∧ w.graph = m.graph.enter s.owner) ∨
      ∃ s : Socket, m.span? = some (.left s.owner) ∧ m.stack = s.owner :: m.move.stack ∧
        w.graph = m.graph.leave s.owner) := by
  obtain ⟨t, ht, e⟩ := exists_turn m
  have hs : m.move.stack = t.stack := by rw [e, stack_settle]
  refine ⟨t.workspace, t.workspace.handles.holds ++ t.holds, by rw [e, graph_settle, graph], ?_⟩
  obtain ⟨hw, he⟩ | ⟨s, holding, hd, ha, hw, hg⟩ | ⟨s, hw, hg, -⟩ := ht.workspace_cases
  · have hm : m.move.stack = m.stack := hs.trans (stack_of_wanted hw)
    exact .inl ⟨span?_of_stack_eq hm, hm, he⟩
  · have hm : m.move.stack = s.owner :: m.stack := hs.trans (stack_of_wanted_cons hw)
    exact .inr (.inl ⟨s, holding, span?_of_entered hm, hm, hd, ha, congrArg Workspace.graph hg⟩)
  · have hm : m.stack = s.owner :: m.move.stack := hs ▸ stack_of_wanted_cons hw
    exact .inr (.inr ⟨s, span?_of_left hm, hm, congrArg Workspace.graph hg⟩)

end Machine

/-- The beginnings and ends of computes in a run, the latest first. -/
def spans (past : List Machine) : List Span := past.filterMap Machine.span?

/-- Beginnings and ends, the latest first, that are properly nested and leave the listed computes
open, the innermost first. -/
inductive Nested : List Span → List NodeId → Prop
  | nil : Nested [] []
  | entered {spans : List Span} {open' : List NodeId} (id : NodeId) :
      Nested spans open' → Nested (.entered id :: spans) (id :: open')
  | left {spans : List Span} {open' : List NodeId} (id : NodeId) :
      Nested spans (id :: open') → Nested (.left id :: spans) open'

/-- At a moment of a run the marks of the nodes, the computes in progress and the steps agree. -/
structure Bracketed (past : List Machine) (m : Machine) : Prop where
  computing_iff : ∀ id, m.graph.computing id = true ↔ id ∈ m.stack
  /-- The record of a dead node is no exception. -/
  mark_iff : ∀ id node, m.graph.node? id = some node → (node.computing = true ↔ id ∈ m.stack)
  nodup : m.stack.Nodup
  nested : Nested (spans past) m.stack
  /-- A read of an unset socket of a node that computes is refused and changes nothing. -/
  cycle : ∀ s holding, m.Demands s holding → m.graph.cell? s = none → s.owner ∈ m.stack →
    m.move.control = .returned (.error (.cycleDetected s)) ∧ m.move.workspace = m.workspace ∧
      m.move.stack = m.stack
  /-- A read has its outcome with the computes in progress with which it began. -/
  reads : ∀ s outcome m', m.Reads s outcome m' → m'.stack = m.stack
  /-- Any step has its result so, and then the compute that it is part of goes on, unless the step is
  refused and was no attempt. -/
  ends : ∀ m', m.Ends m' → ∃ action attempt rest, m.task.todo = .act action attempt :: rest ∧
    ∃ (result : Result) (last : Machine), m' = (last.conclude action attempt result).settle ∧
      last.stack = m.stack ∧ (∀ id, last.graph.computing id = m.graph.computing id) ∧
        (m'.stack = m.stack ∨ attempt = false ∧ (∃ e, result = .error (.graph e)) ∧
          m'.stack = m.stack.tail)
  idle : m.idle = true → ∀ id, m.graph.computing id = false
  settled : m.idle = true → ∀ s, m.graph.state s ≠ .computing

open Machine

variable {past : List Machine} {m : Machine}

theorem Run.nested (h : Run past m) : Nested (spans past) m.stack := by
  induction h with
  | start => exact .nil
  | @move past m _ ih =>
    obtain ⟨-, -, -, ⟨hn, hm, -⟩ | ⟨s, -, he, hm, -⟩ | ⟨s, hl, hm, -⟩⟩ := m.move_cases
    · rw [spans, List.filterMap_cons_none hn, hm]
      exact ih
    · rw [spans, List.filterMap_cons_some he, hm]
      exact .entered _ ih
    · rw [spans, List.filterMap_cons_some hl]
      exact .left _ (hm ▸ ih)
  | @load past m action _ hi ih =>
    have hm : m.move.stack = m.stack := by rw [move_of_idle hi, stack_settle]
    rw [spans, List.filterMap_cons_none (span?_of_stack_eq hm)]
    exact ih

/-- Computes begin and end in brackets, and the marks say which ones are open. -/
theorem Run.bracketed (h : Run past m) : Bracketed past m where
  computing_iff := (mirrored h).computing
  mark_iff id node hn := by
    rw [← (mirrored h).busy, Graph.busy, hn]
    rfl
  nodup := (mirrored h).nodup
  nested := h.nested
  cycle s holding hd hc hs := by
    have ha : m.graph.answer? s = some (.error (.cycleDetected s)) := by
      simp [Graph.answer?, hc, (mirrored h).alive _ hs, ((mirrored h).computing _).mpr hs]
    obtain ⟨trace, e⟩ := h.move_of_answer hd ha
    rw [e]
    exact ⟨rfl, m.workspace_setTask _, m.stack_setTask _⟩
  reads s outcome m' hr := by
    obtain ⟨holding, -, hs⟩ := hr.sameTasks
    rw [hs.stack_eq, stack_setTask]
  ends m' he := by
    obtain ⟨action, attempt, rest, ht, result, last, hm, hs, hl⟩ := he.exists_last h
    refine ⟨action, attempt, rest, ht, result, last, hm, hs, fun id => ?_, ?_⟩
    · rw [Bool.eq_iff_iff, hl.computing, (mirrored h).computing, hs]
    · rw [hm, stack_settle, ← hs]
      exact stack_conclude action attempt result
  idle := computing_of_idle h
  settled hi s := by
    unfold Graph.state
    cases m.graph.cell? s <;> simp [computing_of_idle h hi]

/-- A node that reads its own output meets its own mark. -/
theorem Run.bracketed_selfLoop :
    ∃ past m, Run past m ∧ m.stack = [⟨0⟩] ∧ Bracketed past m ∧
      m.move.control = .returned (.error (.cycleDetected ⟨⟨0⟩, "v"⟩)) := by
  have created := Run.start.load (.edit (.create "n" .identifier .add)) rfl
  have connected := created.move.load
    (.edit (.connect (.label "n") "v1" (.output (.label "n") "v"))) rfl
  have reading := connected.move.load (.demand (.output (.label "n") "v") none) rfl
  have h := reading.move.bracketed
  refine ⟨_, _, reading.move, rfl, h, (h.cycle ⟨⟨0⟩, "v"⟩ (some ⟨0⟩) ?_ rfl ?_).1⟩
  · exact ⟨rfl, _, _, _, _, rfl, rfl⟩
  · exact List.mem_singleton.mpr rfl

end PullGraph

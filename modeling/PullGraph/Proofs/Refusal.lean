import PullGraph.Proofs.Naming
import PullGraph.Proofs.Binding

/-!
# Refused operations

Wiring, writing and the creation of nodes and of inputs check before they change anything.

* `Course`: work on a workspace and a log that goes on step by step. A failure leaves behind what
  was done before it.
* `Operation`: an operation with all that it refers to at hand, and `Operation.course` its steps in
  their order. `Edit.Means` is the operation that an edit stands for.
* `Operation.course_eq`: either a course does all of its steps, or it fails before the first that
  leaves a mark. `Edit.Means.apply_eq`: the edit comes to what the course comes to.
* `Operation.Refused`: the four reasons to refuse an operation. `Operation.result_eq_error_iff`:
  there are no others.
* `Run.unharmed`: what this means for a run, at the top level and inside of computes.
-/

namespace PullGraph

/-! ## Courses -/

/-- Work on a workspace and a log. -/
abbrev Course := EStateM GraphError (Workspace × List Record)

namespace Course

variable {α : Type}

/-- Goes on with a result or fails with its error. -/
def check (r : Except GraphError α) : Course α := fun s =>
  match r with
  | .ok a => .ok a s
  | .error e => .error e s

/-- Looks at the workspace. -/
def look (f : Workspace → α) : Course α := fun s => .ok (f s.1) s

/-- Changes the workspace. -/
def change (f : Workspace → Workspace) : Course Unit := fun s => .ok () (f s.1, s.2)

/-- Adds a record to the log. -/
def log (record : Record) : Course Unit := fun s => .ok () (s.1, s.2 ++ [record])

section Bind

variable {β : Type} {x : Course α} {f : α → Course β} {s s' : Workspace × List Record}

theorem bind_of_ok {a : α} (h : x s = .ok a s') : (x >>= f) s = f a s' := by
  change EStateM.bind x f s = f a s'
  rw [EStateM.bind, h]

theorem bind_of_error {e : GraphError} (h : x s = .error e s') : (x >>= f) s = .error e s' := by
  change EStateM.bind x f s = .error e s'
  rw [EStateM.bind, h]

theorem bind_look (g : Workspace → α) (w : Workspace) (log : List Record) :
    (look g >>= f) (w, log) = f (g w) (w, log) := rfl

end Bind

/-- A course that ends with a result or fails at once, and has no other way to go. -/
def ending (w : Workspace) (log : List Record)
    (r : Except GraphError (α × Workspace × List Record)) :
    EStateM.Result GraphError (Workspace × List Record) α :=
  match r with
  | .ok (a, w', records) => .ok a (w', log ++ records)
  | .error e => .error e (w, log)

theorem ending_nil (w : Workspace) (log : List Record) (a : α) (w' : Workspace) :
    ending w log (.ok (a, w', [])) = .ok a (w', log) := by
  rw [ending, List.append_nil]

theorem eq_error_of_ending {w : Workspace} {log : List Record}
    {r : Except GraphError (α × Workspace × List Record)} {e : GraphError}
    {state : Workspace × List Record} (h : ending w log r = .error e state) : r = .error e := by
  cases r with
  | error e' => cases h; rfl
  | ok done => cases h

/-! ## The steps of the operations -/

/-- The names are checked before an identity is taken. -/
def create (label : String) (policy : NamePolicy) (logic : Logic) : Course Reply := do
  check (policy.checkAll logic.inputNames)
  check (policy.checkAll logic.outputNames)
  let id ← look (·.graph.nextId)
  change fun w => w.setGraph (w.graph.push (some (.fresh logic (.unconnected logic.inputNames))))
  log (.created id logic.typeName)
  change (·.keepNode label id)
  return .id id

/-- Going from one socket to another is worth a warning. -/
def warn (id : NodeId) (input : String) : Except GraphError (Option Socket) → Option Socket →
    Course Unit
  | .ok (some old), some new => if old = new then pure () else log (.rebinding id input)
  | _, _ => pure ()

theorem warn_error (id : NodeId) (input : String) (e : GraphError) (s : Option Socket)
    (state : Workspace × List Record) : warn id input (.error e) s state = .ok () state := by
  cases s <;> rfl

theorem warn_ok (id : NodeId) (input : String) (old s : Option Socket) (w : Workspace)
    (records : List Record) : warn id input (.ok old) s (w, records) = .ok () (w, records ++
      match old, s with
      | some a, some b => if a = b then [] else [.rebinding id input]
      | _, _ => []) := by
  cases old with
  | none => cases s <;> (rw [List.append_nil]; rfl)
  | some a =>
    cases s with
    | none =>
      rw [List.append_nil]
      rfl
    | some b =>
      simp only [warn]
      split
      · rw [List.append_nil]
        rfl
      · rfl

/-- The warning goes out before the name is looked up for the change. -/
def setInput (id : NodeId) (input : String) (s : Option Socket) : Course Reply := do
  let inputs ← look (·.graph.inputs id)
  warn id input (inputs.get input) s
  let alive ← look (·.graph.alive)
  let inputs ← check (inputs.set alive input s)
  change fun w => w.setGraph (w.graph.rewire id inputs)
  return .nothing

def connect (id : NodeId) (input : String) (s : Socket) : Course Reply := do
  let reply ← setInput id input (some s)
  log (.connected s id input)
  return reply

def setValue (s : Socket) (writer : NodeId) (v : Value) : Course Reply := do
  check (if writer = s.owner then .ok () else .error (.ownershipViolation s writer))
  change fun w => w.setGraph (w.graph.fill s v)
  return .nothing

def setOutput (id : NodeId) (output : String) (v : Value) : Course Reply := do
  let s ← check (← look (·.graph.output id output))
  setValue s id v

def newInputs (label : String) (policy : NamePolicy) (names : List String) : Course Reply := do
  check (policy.checkAll names)
  let inputs := Inputs.unconnected names
  change (·.keepInputs label inputs)
  return .inputs inputs

def bindInput (label : String) (inputs : Inputs) (input : String) (s : Option Socket) :
    Course Reply := do
  let alive ← look (·.graph.alive)
  let inputs ← check (inputs.set alive input s)
  change (·.keepInputs label inputs)
  return .nothing

/-- A value of a type that no input takes is refused, and an undeclared name before that. -/
def bindDynamic (label : String) (inputs : Inputs) (input : String) : Dynamic → Course Reply
  | .socket s => bindInput label inputs input (some s)
  | .optional s => bindInput label inputs input s
  | .other => do
    let _ ← check (inputs.binding input)
    throw (.typeMismatch input)

end Course

/-! ## Operations -/

/-- Wiring, a write or a creation, with all that it refers to. -/
inductive Operation where
  | create (label : String) (policy : NamePolicy) (logic : Logic)
  | setInput (id : NodeId) (input : String) (s : Option Socket)
  | connect (id : NodeId) (input : String) (s : Socket)
  | disconnect (id : NodeId) (input : String)
  | setOutput (id : NodeId) (output : String) (v : Value)
  | setValue (s : Socket) (writer : NodeId) (v : Value)
  | newInputs (label : String) (policy : NamePolicy) (names : List String)
  | bindInput (label : String) (inputs : Inputs) (input : String) (s : Option Socket)
  | bindDynamic (label : String) (inputs : Inputs) (input : String) (value : Dynamic)

/-- The operation that an edit stands for where its references are resolved. -/
inductive Edit.Means (scope : Scope) (w : Workspace) : Edit → Operation → Prop
  | create {label : String} {policy : NamePolicy} {logic : Logic} :
      Means scope w (.create label policy logic) (.create label policy logic)
  | setInput {node : NodeRef} {id : NodeId} {input : String} {r : Option SocketRef}
      {s : Option Socket} (hs : scope.socket? w r = .ok s) (hn : scope.node w node = .ok id) :
      Means scope w (.setInput node input r) (.setInput id input s)
  | connect {node : NodeRef} {id : NodeId} {input : String} {r : SocketRef} {s : Socket}
      (hs : scope.socket w r = .ok s) (hn : scope.node w node = .ok id) :
      Means scope w (.connect node input r) (.connect id input s)
  | disconnect {node : NodeRef} {id : NodeId} {input : String}
      (hn : scope.node w node = .ok id) :
      Means scope w (.disconnect node input) (.disconnect id input)
  | setOutput {node : NodeRef} {id : NodeId} {output : String} {source : Source}
      (hn : scope.node w node = .ok id) :
      Means scope w (.setOutput node output source) (.setOutput id output (scope.source source))
  | setSum {node : NodeRef} {id : NodeId} {output left right : String} {sum : Value}
      (hn : scope.node w node = .ok id)
      (hsum : (scope.register left).add? (scope.register right) = some sum) :
      Means scope w (.setSum node output left right) (.setOutput id output sum)
  | setValue {r : SocketRef} {s : Socket} {writer : WriterRef} {id : NodeId} {source : Source}
      (hs : scope.socket w r = .ok s) (hw : scope.writer w writer = .ok id) :
      Means scope w (.setValue r writer source) (.setValue s id (scope.source source))
  | newInputs {label : String} {policy : NamePolicy} {names : List String} :
      Means scope w (.newInputs label policy names) (.newInputs label policy names)
  | bindInput {label input : String} {inputs : Inputs} {r : Option SocketRef} {s : Option Socket}
      (hs : scope.socket? w r = .ok s) (hi : w.handles.inputs.find label = .ok inputs) :
      Means scope w (.bindInput label input r) (.bindInput label inputs input s)
  | bindDynamic {label input : String} {inputs : Inputs} {type : DynamicType}
      {r : Option SocketRef} {s : Option Socket}
      (hs : scope.socket? w r = .ok s) (hi : w.handles.inputs.find label = .ok inputs) :
      Means scope w (.bindDynamic label input type r)
        (.bindDynamic label inputs input (type.make s))

namespace Operation

/-- What an operation does, step by step. -/
def course : Operation → Course Reply
  | .create label policy logic => .create label policy logic
  | .setInput id input s => .setInput id input s
  | .connect id input s => .connect id input s
  | .disconnect id input => .setInput id input none
  | .setOutput id output v => .setOutput id output v
  | .setValue s writer v => .setValue s writer v
  | .newInputs label policy names => .newInputs label policy names
  | .bindInput label inputs input s => .bindInput label inputs input s
  | .bindDynamic label inputs input value => .bindDynamic label inputs input value

/-- What an operation comes to, all at once. -/
def result (w : Workspace) : Operation → Except GraphError (Reply × Workspace × List Record)
  | .create label policy logic =>
    (w.graph.create policy logic).map fun (id, g, records) =>
      (.id id, (w.setGraph g).keepNode label id, records)
  | .setInput id input s =>
    (w.graph.setInput id input s).map fun (g, records) => (.nothing, w.setGraph g, records)
  | .connect id input s =>
    (w.graph.connect id input s).map fun (g, records) => (.nothing, w.setGraph g, records)
  | .disconnect id input =>
    (w.graph.disconnect id input).map fun (g, records) => (.nothing, w.setGraph g, records)
  | .setOutput id output v =>
    (w.graph.setOutput id output v).map fun g => (.nothing, w.setGraph g, [])
  | .setValue s writer v =>
    (w.graph.setValue s writer v).map fun g => (.nothing, w.setGraph g, [])
  | .newInputs label policy names =>
    (Inputs.ofNames policy names).map fun inputs => (.inputs inputs, w.keepInputs label inputs, [])
  | .bindInput label inputs input s =>
    (inputs.set w.graph.alive input s).map fun inputs => (.nothing, w.keepInputs label inputs, [])
  | .bindDynamic label inputs input value =>
    (inputs.setAny w.graph.alive input value).map fun inputs =>
      (.nothing, w.keepInputs label inputs, [])

/-! ## Courses come to results -/

variable (w : Workspace) (log : List Record)

theorem create_eq (label : String) (policy : NamePolicy) (logic : Logic) :
    Course.create label policy logic (w, log) =
      Course.ending w log (result w (.create label policy logic)) := by
  simp only [result, Graph.create, Inputs.ofNames, Course.create]
  rcases policy.checkAll logic.inputNames with e | ⟨⟨⟩⟩
  · rfl
  · rcases policy.checkAll logic.outputNames with e | ⟨⟨⟩⟩
    · rfl
    · rfl

theorem setInput_eq (id : NodeId) (input : String) (s : Option Socket) :
    Course.setInput id input s (w, log) =
      Course.ending w log (result w (.setInput id input s)) := by
  rw [Course.setInput, result, Graph.setInput, Course.bind_look]
  -- The warning and the change look up the same name. Where it is not declared, the warning says
  -- nothing and the change fails, so that the log is left alone too.
  rcases hb : (w.graph.inputs id).binding input with e | b
  · have hget : (w.graph.inputs id).get input = .error e := by rw [Inputs.get, hb]; rfl
    have hset : (w.graph.inputs id).set w.graph.alive input s = .error e := by
      rw [Inputs.set, Inputs.rebind, hb]; rfl
    rw [hget, Course.bind_of_ok (Course.warn_error id input e s _), Course.bind_look, hset]
    rfl
  · obtain ⟨inputs, hset⟩ : ∃ inputs, (w.graph.inputs id).set w.graph.alive input s = .ok inputs :=
      ⟨_, by rw [Inputs.set, Inputs.rebind, hb]; rfl⟩
    have hget : (w.graph.inputs id).get input = .ok (b.map (·.socket)) := by
      rw [Inputs.get, hb]; rfl
    rw [hget, Course.bind_of_ok (Course.warn_ok id input _ s w log), Course.bind_look, hset]
    rfl

theorem connect_eq (id : NodeId) (input : String) (s : Socket) :
    Course.connect id input s (w, log) = Course.ending w log (result w (.connect id input s)) := by
  have h := setInput_eq w log id input (some s)
  simp only [result] at h ⊢
  rw [Graph.connect]
  cases hg : w.graph.setInput id input (some s) with
  | error e =>
    rw [hg] at h
    exact Course.bind_of_error h
  | ok changed =>
    obtain ⟨g, records⟩ := changed
    rw [hg] at h
    refine (Course.bind_of_ok h).trans ?_
    -- The record of the connection comes after those of the change.
    change EStateM.Result.ok _ (_, log ++ records ++ _) = .ok _ (_, log ++ (records ++ _))
    rw [List.append_assoc]

theorem setValue_eq (s : Socket) (writer : NodeId) (v : Value) :
    Course.setValue s writer v (w, log) =
      Course.ending w log (result w (.setValue s writer v)) := by
  rw [Course.setValue, result, Graph.setValue]
  split
  · exact (Course.ending_nil w log _ _).symm
  · rfl

theorem setOutput_eq (id : NodeId) (output : String) (v : Value) :
    Course.setOutput id output v (w, log) =
      Course.ending w log (result w (.setOutput id output v)) := by
  rw [Course.setOutput, result, Graph.setOutput, Course.bind_look]
  rcases w.graph.output id output with e | s
  · rfl
  · exact setValue_eq w log s id v

theorem newInputs_eq (label : String) (policy : NamePolicy) (names : List String) :
    Course.newInputs label policy names (w, log) =
      Course.ending w log (result w (.newInputs label policy names)) := by
  rw [Course.newInputs, result, Inputs.ofNames]
  rcases policy.checkAll names with e | ⟨⟨⟩⟩
  · rfl
  · exact (Course.ending_nil w log _ _).symm

theorem bindInput_eq (label : String) (inputs : Inputs) (input : String) (s : Option Socket) :
    Course.bindInput label inputs input s (w, log) =
      Course.ending w log (result w (.bindInput label inputs input s)) := by
  rw [Course.bindInput, result, Course.bind_look]
  rcases inputs.set w.graph.alive input s with e | changed
  · rfl
  · exact (Course.ending_nil w log _ _).symm

theorem bindDynamic_eq (label : String) (inputs : Inputs) (input : String) (value : Dynamic) :
    Course.bindDynamic label inputs input value (w, log) =
      Course.ending w log (result w (.bindDynamic label inputs input value)) := by
  cases value with
  | socket s => exact bindInput_eq w log label inputs input (some s)
  | optional s => exact bindInput_eq w log label inputs input s
  | other =>
    rw [Course.bindDynamic, result, Inputs.setAny]
    rcases inputs.binding input with e | b
    · rfl
    · rfl

/-- An operation does all that it has to, or it fails and leaves everything as it was. -/
theorem course_eq (op : Operation) : op.course (w, log) = Course.ending w log (op.result w) := by
  cases op with
  | create label policy logic => exact create_eq w log label policy logic
  | setInput id input s => exact setInput_eq w log id input s
  | connect id input s => exact connect_eq w log id input s
  | disconnect id input => exact setInput_eq w log id input none
  | setOutput id output v => exact setOutput_eq w log id output v
  | setValue s writer v => exact setValue_eq w log s writer v
  | newInputs label policy names => exact newInputs_eq w log label policy names
  | bindInput label inputs input s => exact bindInput_eq w log label inputs input s
  | bindDynamic label inputs input value => exact bindDynamic_eq w log label inputs input value

end Operation

/-! ## Results of edits -/

/-- A step that ends with an operation of the graph. -/
theorem StepError.ofGraph_bind {α β : Type} (r : Except GraphError α) (f : α → β) :
    (StepError.ofGraph r >>= fun a => .ok (f a)) = StepError.ofGraph (r.map f) := by
  cases r <;> rfl

/-- An edit comes to what the operation comes to that it stands for. -/
theorem Edit.Means.apply_eq {scope : Scope} {w : Workspace} {e : Edit} {op : Operation}
    (h : e.Means scope w op) : e.apply scope w = StepError.ofGraph (op.result w) := by
  cases h with
  | create | newInputs => exact StepError.ofGraph_bind _ _
  | setInput hs hn | connect hs hn =>
    rw [apply, hs, hn]
    exact StepError.ofGraph_bind _ _
  | disconnect hn | setOutput hn =>
    rw [apply, hn]
    exact StepError.ofGraph_bind _ _
  | setSum hn hsum =>
    simp only [apply, hn, hsum]
    exact StepError.ofGraph_bind _ _
  | setValue hs hw =>
    rw [apply, hs, hw]
    exact StepError.ofGraph_bind _ _
  | bindInput hs hi | bindDynamic hs hi =>
    rw [apply, hs, hi]
    exact StepError.ofGraph_bind _ _

/-! ## Errors of the operations -/

theorem map_eq_error {ε α β : Type} {x : Except ε α} {f : α → β} {e : ε} :
    x.map f = .error e ↔ x = .error e := by
  cases x <;> simp [Except.map]

namespace Inputs

variable {inputs : Inputs} {alive : NodeId → Bool} {input : String} {e : GraphError}

theorem ofNames_eq_error_iff {policy : NamePolicy} {names : List String} :
    ofNames policy names = .error e ↔ policy.checkAll names = .error e := by
  rw [ofNames]
  cases policy.checkAll names <;> simp [bind, Except.bind, pure, Except.pure]

theorem set_eq_error_iff {s : Option Socket} :
    inputs.set alive input s = .error e ↔ input ∉ inputs.names ∧ e = .unknownKey input := by
  rw [← binding_eq_error_iff, set, rebind]
  cases inputs.binding input <;> simp [bind, Except.bind, pure, Except.pure]

theorem setAny_other_eq_error_iff :
    inputs.setAny alive input .other = .error e ↔
      input ∉ inputs.names ∧ e = .unknownKey input ∨
        input ∈ inputs.names ∧ e = .typeMismatch input := by
  rw [← binding_eq_error_iff, setAny]
  cases hb : inputs.binding input with
  | error e' =>
    have hk : input ∉ inputs.names := (inputs.binding_eq_error_iff.mp hb).1
    simp [bind, Except.bind, hk]
  | ok b =>
    have hk : input ∈ inputs.names := by
      by_contra hk
      rw [inputs.binding_eq_error_iff.mpr ⟨hk, rfl⟩] at hb
      cases hb
    simp [bind, Except.bind, throw, throwThe, MonadExceptOf.throw, hk, eq_comm]

end Inputs

namespace Graph

variable {g : Graph} {id : NodeId} {e : GraphError}

theorem setInput_eq_error_iff {input : String} {s : Option Socket} :
    g.setInput id input s = .error e ↔ input ∉ (g.inputs id).names ∧ e = .unknownKey input := by
  rw [setInput, Inputs.get]
  cases hb : (g.inputs id).binding input with
  | error e' =>
    rw [← Inputs.binding_eq_error_iff, hb]
    simp [Except.map, bind, Except.bind]
  | ok b =>
    obtain ⟨inputs, hs⟩ : ∃ inputs, (g.inputs id).set g.alive input s = .ok inputs :=
      ⟨_, by rw [Inputs.set, Inputs.rebind, hb]; rfl⟩
    rw [← Inputs.binding_eq_error_iff, hb, hs]
    exact iff_of_false (fun h => by cases h) fun h => by cases h

theorem connect_eq_error_iff {input : String} {s : Socket} :
    g.connect id input s = .error e ↔ input ∉ (g.inputs id).names ∧ e = .unknownKey input := by
  rw [← setInput_eq_error_iff (g := g) (s := some s), connect]
  cases g.setInput id input (some s) <;> simp [bind, Except.bind, pure, Except.pure]

theorem output_eq_error_iff {name : String} :
    g.output id name = .error e ↔ name ∉ (g.outputs id).names ∧ e = .unknownKey name := by
  rw [← Outputs.isSome_find?_iff, output]
  split
  · next h => simp [h]
  · next h => simp [h, eq_comm]

theorem setValue_eq_error_iff {s : Socket} {v : Value} :
    g.setValue s id v = .error e ↔ id ≠ s.owner ∧ e = .ownershipViolation s id := by
  rw [setValue]
  split
  · next h => simp [h]
  · next h => simp [h, eq_comm]

/-- A node is the owner of its outputs, so only an undeclared name is refused. -/
theorem setOutput_eq_error_iff {name : String} {v : Value} :
    g.setOutput id name v = .error e ↔ name ∉ (g.outputs id).names ∧ e = .unknownKey name := by
  rw [← output_eq_error_iff, setOutput]
  cases hs : g.output id name with
  | error e' => simp [bind, Except.bind]
  | ok s =>
    obtain ⟨rfl, -⟩ := output_eq_ok.mp hs
    exact iff_of_false (fun h => (setValue_eq_error_iff.mp h).1 rfl) fun h => by cases h

end Graph

/-! ## Refusals -/

namespace Operation

/-- The name that an operation looks up, with the names that are declared there. -/
def port? (w : Workspace) : Operation → Option (String × List String)
  | .setInput id input _ => some (input, (w.graph.logic id).inputNames)
  | .connect id input _ => some (input, (w.graph.logic id).inputNames)
  | .disconnect id input => some (input, (w.graph.logic id).inputNames)
  | .setOutput id output _ => some (output, (w.graph.logic id).outputNames)
  | .bindInput _ inputs input _ => some (input, inputs.names)
  | .bindDynamic _ inputs input _ => some (input, inputs.names)
  | _ => none

/-- The node whose inputs or outputs an operation looks up by name. -/
def node? : Operation → Option NodeId
  | .setInput id _ _ => some id
  | .connect id _ _ => some id
  | .disconnect id _ => some id
  | .setOutput id _ _ => some id
  | _ => none

/-- The lists of names that an operation declares, each with its policy. -/
def lists : Operation → List (NamePolicy × List String)
  | .create _ policy logic => [(policy, logic.inputNames), (policy, logic.outputNames)]
  | .newInputs _ policy names => [(policy, names)]
  | _ => []

/-- The reasons to refuse an operation, each with the error that tells of it. -/
inductive Refused (w : Workspace) : Operation → GraphError → Prop
  /-- It looks up a name that is not declared. -/
  | unknownKey {op : Operation} {key : String} {declared : List String}
      (hp : op.port? w = some (key, declared)) (hk : key ∉ declared) :
      Refused w op (.unknownKey key)
  /-- It writes a socket under another identity than that of the owner. -/
  | ownershipViolation {s : Socket} {writer : NodeId} {v : Value} (hw : writer ≠ s.owner) :
      Refused w (.setValue s writer v) (.ownershipViolation s writer)
  /-- It binds a declared input to something that is not a socket. -/
  | typeMismatch {label input : String} {inputs : Inputs} (hk : input ∈ inputs.names) :
      Refused w (.bindDynamic label inputs input .other) (.typeMismatch input)
  /-- It declares a list of names that is rejected, and that is its first such list. -/
  | invalidName {op : Operation} {before after : List (NamePolicy × List String)}
      {policy : NamePolicy} {names : List String} {name : String} {fault : NameFault}
      (hl : op.lists = before ++ (policy, names) :: after)
      (hb : ∀ list ∈ before, list.1.checkAll list.2 = .ok ())
      (hf : policy.firstFault? names = some (name, fault)) :
      Refused w op (.invalidName name fault)

variable {w : Workspace} {op : Operation} {e : GraphError}

/-- An operation that only looks up a name is refused if the name is not declared. -/
theorem refused_iff_of_port {key : String} {declared : List String}
    (hp : op.port? w = some (key, declared)) (hl : op.lists = [])
    (hd : ∀ label inputs input, op ≠ .bindDynamic label inputs input .other) :
    op.Refused w e ↔ key ∉ declared ∧ e = .unknownKey key := by
  constructor
  · intro h
    cases h with
    | unknownKey hp' hk =>
      cases hp.symm.trans hp'
      exact ⟨hk, rfl⟩
    | ownershipViolation => cases hp
    | typeMismatch => exact absurd rfl (hd _ _ _)
    | invalidName hl' => simp [hl] at hl'
  · rintro ⟨hk, rfl⟩
    exact .unknownKey hp hk

/-- An operation that only declares names is refused for its first list that is rejected. -/
theorem refused_iff_of_lists (hp : op.port? w = none)
    (hw : ∀ s writer v, op ≠ .setValue s writer v) :
    op.Refused w e ↔ ∃ before policy names after, op.lists = before ++ (policy, names) :: after ∧
      (∀ list ∈ before, list.1.checkAll list.2 = .ok ()) ∧ policy.checkAll names = .error e := by
  constructor
  · intro h
    cases h with
    | unknownKey hp' => cases hp.symm.trans hp'
    | ownershipViolation => exact absurd rfl (hw _ _ _)
    | typeMismatch => cases hp
    | invalidName hl hb hf =>
      exact ⟨_, _, _, _, hl, hb, NamePolicy.checkAll_eq_error_iff.mpr ⟨_, _, hf, rfl⟩⟩
  · rintro ⟨before, policy, names, after, hl, hb, hc⟩
    obtain ⟨name, fault, hf, rfl⟩ := NamePolicy.checkAll_eq_error_iff.mp hc
    exact .invalidName hl hb hf

/-- An operation fails for one of the four reasons, and for each of them. -/
theorem result_eq_error_iff
    (hd : ∀ id ∈ op.node?, (w.graph.inputs id).names = (w.graph.logic id).inputNames ∧
      (w.graph.outputs id).names = (w.graph.logic id).outputNames) :
    op.result w = .error e ↔ op.Refused w e := by
  cases op with
  | create label policy logic =>
    rw [result, map_eq_error, Graph.create_eq_error_iff, refused_iff_of_lists rfl (by simp)]
    constructor
    -- The names of the inputs come first, so those of the outputs are to blame only if they pass.
    · rintro (h | ⟨hi, h⟩)
      · exact ⟨[], policy, logic.inputNames, _, rfl, (fun _ hm => by cases hm), h⟩
      · refine ⟨[(policy, logic.inputNames)], policy, logic.outputNames, [], rfl, ?_, h⟩
        exact fun list hm => List.mem_singleton.mp hm ▸ hi
    · rintro ⟨before, policy, names, after, hl, hb, h⟩
      rcases before with _ | ⟨first, _ | ⟨second, before⟩⟩
      · cases hl
        exact .inl h
      · cases hl
        exact .inr ⟨hb _ List.mem_cons_self, h⟩
      · simp [lists] at hl
  | setInput id input s =>
    rw [result, map_eq_error, Graph.setInput_eq_error_iff, refused_iff_of_port rfl rfl (by simp),
      (hd id rfl).1]
  | connect id input s =>
    rw [result, map_eq_error, Graph.connect_eq_error_iff, refused_iff_of_port rfl rfl (by simp),
      (hd id rfl).1]
  | disconnect id input =>
    rw [result, map_eq_error, Graph.disconnect, Graph.setInput_eq_error_iff,
      refused_iff_of_port rfl rfl (by simp), (hd id rfl).1]
  | setOutput id output v =>
    rw [result, map_eq_error, Graph.setOutput_eq_error_iff, refused_iff_of_port rfl rfl (by simp),
      (hd id rfl).2]
  | setValue s writer v =>
    rw [result, map_eq_error, Graph.setValue_eq_error_iff]
    constructor
    · rintro ⟨hw, rfl⟩
      exact .ownershipViolation hw
    · intro h
      cases h with
      | unknownKey hp => cases hp
      | ownershipViolation hw => exact ⟨hw, rfl⟩
      | invalidName hl => simp [lists] at hl
  | newInputs label policy names =>
    rw [result, map_eq_error, refused_iff_of_lists rfl (by simp)]
    constructor
    · intro h
      exact ⟨[], policy, names, [], rfl, (fun _ hm => by cases hm),
        Inputs.ofNames_eq_error_iff.mp h⟩
    · rintro ⟨before, policy, names, after, hl, -, h⟩
      rcases before with _ | ⟨first, before⟩
      · cases hl
        exact Inputs.ofNames_eq_error_iff.mpr h
      · simp [lists] at hl
  | bindInput label inputs input s =>
    rw [result, map_eq_error, Inputs.set_eq_error_iff, refused_iff_of_port rfl rfl (by simp)]
  | bindDynamic label inputs input value =>
    rw [result, map_eq_error]
    cases value with
    | socket s =>
      rw [refused_iff_of_port rfl rfl (by simp)]
      exact Inputs.set_eq_error_iff
    | optional s =>
      rw [refused_iff_of_port rfl rfl (by simp)]
      exact Inputs.set_eq_error_iff
    | other =>
      -- The name is looked up before the type counts, so an undeclared name is unknown here too.
      rw [Inputs.setAny_other_eq_error_iff]
      constructor
      · rintro (⟨hk, rfl⟩ | ⟨hk, rfl⟩)
        · exact .unknownKey rfl hk
        · exact .typeMismatch hk
      · intro h
        cases h with
        | unknownKey hp hk =>
          cases hp
          exact .inl ⟨hk, rfl⟩
        | typeMismatch hk => exact .inr ⟨hk, rfl⟩
        | invalidName hl => simp [lists] at hl

end Operation

theorem Edit.Means.holds {scope : Scope} {w : Workspace} {e : Edit} {op : Operation} {id : NodeId}
    (h : e.Means scope w op) (hid : id ∈ op.node?) : scope.Holds w id := by
  cases h with
  | setInput _ hn | connect _ hn | disconnect hn | setOutput hn | setSum hn _ =>
    cases hid
    exact Scope.holds_of_node hn
  | create | setValue | newInputs | bindInput | bindDynamic => cases hid

/-! ## Steps of a run -/

namespace Machine

variable {m : Machine} {e : Edit} {attempt : Bool} {rest : List Instr} {op : Operation}

/-- A step whose operation is refused leaves no mark on the graph, on what the program holds and on
the log. -/
structure Unharmed (m : Machine) (e : Edit) (attempt : Bool) (rest : List Instr) (op : Operation) :
    Prop where
  /-- The operation fails for one of the four reasons, and for each of them. -/
  fails_iff (err : GraphError) :
    (∃ state, op.course (m.workspace, []) = .error err state) ↔ op.Refused m.workspace err
  /-- When it fails nothing is done yet and nothing is logged. -/
  untouched (err : GraphError) (log : List Record) (h : op.Refused m.workspace err) :
    op.course (m.workspace, log) = .error err (m.workspace, log)
  /-- At the top level and as an attempt, all that comes of it is the result of the step. -/
  dropped (err : GraphError) (h : op.Refused m.workspace err)
    (ha : attempt = true ∨ m.frames = []) :
    m.move.workspace = m.workspace ∧
    m.move = { m.setTask { m.task with todo := rest, holding := none } with
      control := .running
      trace := .did m.current (.edit e) (.error (.graph err)) :: m.trace }
  /-- Any other step of a compute takes the compute with it, which leaves the graph as it was when
  the step began. -/
  ended (err : GraphError) (h : op.Refused m.workspace err) (ha : attempt = false) (f : Frame)
    (frames : List Frame) (hf : m.frames = f :: frames) :
    m.move = { m with
      workspace := m.workspace.setGraph (m.graph.leave f.node), frames := frames,
      control := .returned (.error err),
      trace := .did m.current (.edit e) (.error (.graph err)) :: m.trace }.settle
  /-- In any case the step comes to what the course of the operation comes to. -/
  apply_eq : e.apply m.scope m.workspace =
    match op.course (m.workspace, []) with
    | .ok reply (w, records) => .ok (reply, w, records)
    | .error err _ => .error (.graph err)

theorem conclude_of_dropped (action : Action) (err : GraphError)
    (ha : attempt = true ∨ m.frames = []) :
    m.conclude action attempt (.error (.graph err)) =
      { m.setTask { m.task with todo := m.task.todo.tail, holding := none } with
        control := .running, trace := .did m.current action (.error (.graph err)) :: m.trace } := by
  rcases m.conclude_error action attempt (.graph err) with h | ⟨rfl, _, f, frames, -, hf, -⟩
  · exact h
  -- A step that takes its compute with it is no attempt and not at the top level.
  · rcases ha with ha | ha
    · cases ha
    · rw [ha] at hf
      cases hf

theorem conclude_of_ended (action : Action) (err : GraphError) {f : Frame} {frames : List Frame}
    (hf : m.frames = f :: frames) :
    m.conclude action false (.error (.graph err)) = { m with
      workspace := m.workspace.setGraph (m.graph.leave f.node), frames := frames,
      control := .returned (.error err),
      trace := .did m.current action (.error (.graph err)) :: m.trace } := by
  obtain ⟨w, base, all, control, trace⟩ := m
  cases hf
  rfl

end Machine

variable {past : List Machine} {m : Machine} {e : Edit} {attempt : Bool} {rest : List Instr}
  {op : Operation}

/-- The names that a step looks up are those that the kind of the node declares. -/
theorem Run.names_eq_of_means (h : Run past m) (he : e.Means m.scope m.workspace op) :
    ∀ id ∈ op.node?, (m.graph.inputs id).names = (m.graph.logic id).inputNames ∧
      (m.graph.outputs id).names = (m.graph.logic id).outputNames := by
  intro id hid
  have ha : m.graph.alive id = true :=
    (Machine.firm h).alive_of_holds (fun _ => Machine.mem_holds_of_self) (he.holds hid)
  exact ⟨(Machine.names_inputs_eq h ha).1, (Machine.wired h).names_eq id⟩

/-- In every state of a run, wiring and writing operations and creations that are refused leave no
mark, and they are refused for one of four reasons. -/
theorem Run.unharmed (h : Run past m) (hr : m.control = .running)
    (ht : m.task.todo = .act (.edit e) attempt :: rest) (he : e.Means m.scope m.workspace op) :
    m.Unharmed e attempt rest op := by
  have hiff (err : GraphError) : op.result m.workspace = .error err ↔ op.Refused m.workspace err :=
    Operation.result_eq_error_iff (h.names_eq_of_means he)
  have hcourse (err : GraphError) (log : List Record) (ho : op.Refused m.workspace err) :
      op.course (m.workspace, log) = .error err (m.workspace, log) := by
    rw [op.course_eq, (hiff err).mpr ho]
    rfl
  have hmove (err : GraphError) (ho : op.Refused m.workspace err) :
      m.move = (m.conclude (.edit e) attempt (.error (.graph err))).settle := by
    refine Machine.move_of_error hr ht ?_
    rw [Action.begin, he.apply_eq, (hiff err).mpr ho]
    rfl
  refine ⟨fun err => ⟨?_, fun ho => ⟨_, hcourse err [] ho⟩⟩, hcourse, fun err ho ha => ?_,
    fun err ho ha f frames hf => ?_, ?_⟩
  · rintro ⟨state, hs⟩
    rw [op.course_eq] at hs
    exact (hiff err).mp (Course.eq_error_of_ending hs)
  · have hm := hmove err ho
    rw [Machine.conclude_of_dropped _ _ ha, h.settle_setTask hr, ht, List.tail_cons] at hm
    exact ⟨by rw [hm]; exact Machine.workspace_setTask _ _, hm⟩
  · subst ha
    rw [hmove err ho, Machine.conclude_of_ended _ _ hf]
  · rw [op.course_eq, he.apply_eq]
    cases op.result m.workspace <;> rfl

/-- A compute that writes the socket of another node. -/
theorem Run.unharmed_foreign :
    ∃ past m write, Run past m ∧ m.control = .running ∧ m.stack = [⟨1⟩] ∧
      m.task.todo = [.act (.edit write) false] ∧
      write.Means m.scope m.workspace (.setValue ⟨⟨0⟩, "v"⟩ ⟨1⟩ .null) ∧
      (Operation.setValue ⟨⟨0⟩, "v"⟩ ⟨1⟩ .null).Refused m.workspace
        (.ownershipViolation ⟨⟨0⟩, "v"⟩ ⟨1⟩) ∧
      m.Unharmed write false [] (.setValue ⟨⟨0⟩, "v"⟩ ⟨1⟩ .null) := by
  have h₁ := Run.start.load (.edit (.create "a" .identifier (.value .null))) rfl
  have h₂ := h₁.move.load (.edit (.create "s" .identifier (.script [] ["v"] "S" [[.act
    (.edit (.setValue (.output (.label "a") "v") .self (.constant .null))) false]]))) rfl
  have h := (h₂.move.load (.demand (.output (.label "s") "v") none) rfl).move
  refine ⟨_, _, _, h, rfl, rfl, rfl, ?_, .ownershipViolation (by decide),
    h.unharmed rfl rfl ?_⟩
  all_goals exact .setValue rfl rfl

end PullGraph

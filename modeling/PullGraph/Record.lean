import PullGraph.Report

/-!
# Log records

What the graph tells a log while it works: a `Record`, with its level and its text.
-/

namespace PullGraph

/-- The levels of a log. -/
inductive Level where
  | trace
  | debug
  | info
  | warn
  | error
  deriving DecidableEq, Repr

/-- The written form of a level. -/
def Level.text : Level → String
  | .trace => "TRACE"
  | .debug => "DEBUG"
  | .info => "INFO"
  | .warn => "WARN"
  | .error => "ERROR"

/-- An entry of a log. -/
inductive Record where
  | created (node : NodeId) (type : String)
  | connected (source : Socket) (node : NodeId) (input : String)
  /-- A bound input is about to be bound to another socket. -/
  | rebinding (node : NodeId) (input : String)
  | computing (node : NodeId) (type : String)
  | finished (node : NodeId) (type : String)
  /-- A socket was read that has a value. -/
  | cacheHit (s : Socket)
  /-- A socket was read whose owner is computing. -/
  | demandedWhileComputing (s : Socket)
  /-- A compute ended well without setting the socket that it was started for. -/
  | leftUnset (s : Socket) (type : String)
  /-- A validation found nothing. -/
  | validated
  | found (issue : Issue)
  deriving DecidableEq, Repr

namespace Record

/-- How loud a record is. -/
def level : Record → Level
  | .created .. => .debug
  | .connected .. => .debug
  | .rebinding .. => .warn
  | .computing .. => .debug
  | .finished .. => .debug
  | .cacheHit _ => .trace
  | .demandedWhileComputing _ => .warn
  | .leftUnset .. => .error
  | .validated => .info
  | .found issue =>
    match issue.severity with
    | .error => .error
    | .warning => .warn

/-- The name of a socket and its owner, as records give them. -/
def origin (s : Socket) : String := "'" ++ s.name ++ "' of node " ++ s.owner.text

/-- A record in words. -/
def text : Record → String
  | .created node type => "Created node " ++ node.text ++ " (" ++ type ++ ")"
  | .connected source node input =>
    "Connected output " ++ origin source ++ " to input '" ++ input ++ "' of node " ++ node.text
  | .rebinding node input =>
    "Input '" ++ input ++ "' of node " ++ node.text ++ " was already connected, rebinding it."
  | .computing node type => "Computing node " ++ node.text ++ " (" ++ type ++ ")"
  | .finished node type => "Finished node " ++ node.text ++ " (" ++ type ++ ")"
  | .cacheHit s => "Cache hit for output " ++ origin s
  | .demandedWhileComputing s =>
    "Output " ++ origin s ++ " was demanded while the node was computing"
  | .leftUnset s type =>
    "Node " ++ s.owner.text ++ " (" ++ type ++ ") finished computing without setting output '" ++
      s.name ++ "'"
  | .validated => "Graph validation passed: every upstream input is connected and acyclic."
  | .found issue => issue.text

end Record

/-- The records of a report: one for each issue, or one that says that there is none. -/
def Report.records (r : Report) : List Record :=
  if r.issues.isEmpty then [.validated] else r.issues.map .found

end PullGraph

import PullGraph.Socket

/-!
# Validation reports

What a look at the wiring that a node depends on finds. An `Issue` is about one input; a `Report`
lists the issues in the order in which they were found.
-/

namespace PullGraph

/-- How bad an issue is. -/
inductive Severity where
  /-- A read that gets there fails. -/
  | error
  /-- A read may fail, depending on what the computes read. -/
  | warning
  deriving DecidableEq, Repr

/-- Something found at an input of a node. -/
inductive Issue where
  /-- The input is bound to a socket of a node from which the search is still under way. -/
  | cycle (node : NodeId) (input : String) (source : Socket)
  /-- The input has no binding. -/
  | unconnected (node : NodeId) (input : String)
  /-- The input is bound to an unset socket, and its owner was gone when it was bound. -/
  | detached (node : NodeId) (input : String) (output : String)
  deriving DecidableEq, Repr

namespace Issue

/-- Only an unconnected input is a mere warning. -/
def severity : Issue → Severity
  | .cycle .. => .error
  | .unconnected .. => .warning
  | .detached .. => .error

/-- The node whose input the issue is about. -/
def node : Issue → NodeId
  | .cycle node _ _ => node
  | .unconnected node _ => node
  | .detached node _ _ => node

/-- The issue in words. -/
def text : Issue → String
  | .cycle node input source =>
    "cycle: input '" ++ input ++ "' of node " ++ node.text ++ " depends on output '" ++
      source.name ++ "' of node " ++ source.owner.text ++ ", which is still being resolved"
  | .unconnected node input =>
    "input '" ++ input ++ "' of node " ++ node.text ++ " is unconnected"
  | .detached node input output =>
    "input '" ++ input ++ "' of node " ++ node.text ++ " is bound to output '" ++ output ++
      "' of a node that no longer exists"

end Issue

/-- The issues of one validation. -/
structure Report where
  issues : List Issue
  deriving DecidableEq, Repr, Inhabited

namespace Report

variable (r : Report)

/-- The issues of one severity. -/
def ofSeverity (severity : Severity) : List Issue := r.issues.filter (·.severity = severity)

/-- The issues that make a read fail. -/
def errors : List Issue := r.ofSeverity .error

/-- The issues that may make a read fail. -/
def warnings : List Issue := r.ofSeverity .warning

/-- Nothing was found that makes a read fail. -/
def isSafe : Bool := r.errors.isEmpty

/-- Something was found that may make a read fail. -/
def hasWarnings : Bool := !r.warnings.isEmpty

end Report

end PullGraph

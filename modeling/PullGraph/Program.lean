import PullGraph.Machine

/-!
# Programs

A program is a list of steps that run on an empty workspace.

* `runProgram` gives the entries of all steps.
* `Program.sum` adds two values on a graph of three nodes.
* `Program.names` puts a list of names through everything that takes a list of names.
* `libraryName` and `libraryVersion` say what the reports come from.
-/

namespace PullGraph

/-- The name under which the library reports itself. -/
def libraryName : String := "lazyflow"

/-- The version under which the library reports itself. -/
def libraryVersion : String := "0.1.0"

/-- Steps that are run in order. -/
abbrev Program := List Action

/-- The number of moves that a step is given. -/
def moveLimit : Nat := 0x10000000000

/-- The entries of the steps of a program, unless a step goes on beyond the limit. -/
def runProgram (program : Program) : Option (List Entry) :=
  (Machine.start.execAll moveLimit program).map (·.1)

namespace Program

/-- Two constants, an adder that is bound to them, and the read of the sum. -/
def sum (lhs rhs : Value) : Program :=
  [.edit (.create "a" .identifier (.value lhs)),
    .edit (.create "b" .identifier (.value rhs)),
    .edit (.create "s" .identifier .add),
    .edit (.connect (.label "s") "v1" (.output (.label "a") "v")),
    .edit (.connect (.label "s") "v2" (.output (.label "b") "v")),
    .demand (.output (.label "s") "v") none]

/-- Each name alone, all names together, and the names as a set of inputs, as the inputs of a node
and as the outputs of a node. -/
def names (policy : NamePolicy) (names : List String) : Program :=
  names.map (fun name => .query (.check policy name)) ++
    [.query (.checkAll policy names),
      .edit (.newInputs "i" policy names),
      .edit (.create "sink" policy (.sink names)),
      .edit (.create "hollow" policy (.hollow names))]

end Program

end PullGraph

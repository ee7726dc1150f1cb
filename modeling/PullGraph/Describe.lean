import PullGraph.Graph
import PullGraph.Text.Quoted

/-!
# Descriptions

One-line texts of identities, sockets, nodes and inputs, for people to read. A compound has the form
`Name { field: text, … }`, a list `[text, …]`, a pair `(text, text)`, and something that may be
missing `Some(text)` or `None`. The text of a node has no inputs, so texts end.
-/

namespace PullGraph

/-- The text of a compound. -/
def describeFields (name : String) (fields : List (String × String)) : String :=
  name ++ " \x7b " ++ ", ".intercalate (fields.map fun field => field.1 ++ ": " ++ field.2) ++
    " \x7d"

/-- The text of a list. -/
def describeList (texts : List String) : String := "[" ++ ", ".intercalate texts ++ "]"

/-- The text of a name and what it stands for. -/
def describeEntry (name text : String) : String :=
  "(" ++ Text.quotedPlain name ++ ", " ++ text ++ ")"

/-- The text of something that may be missing. -/
def describeOption (text : Option String) : String :=
  match text with
  | some t => "Some(" ++ t ++ ")"
  | none => "None"

/-- The text of an identity. -/
def NodeId.describe (id : NodeId) : String := "NodeId(" ++ id.text ++ ")"

namespace Graph

variable (g : Graph)

/-- The text of a socket. -/
def describeSocket (s : Socket) : String :=
  describeFields "Socket" [("owner", s.owner.describe), ("name", Text.quotedPlain s.name),
    ("state", (g.state s).text)]

/-- The text of the outputs of a node. -/
def describeOutputs (id : NodeId) : String :=
  describeFields "Outputs" [("sockets", describeList ((g.sockets id).map fun s =>
    describeEntry s.name (g.describeSocket s)))]

/-- The text of a node. -/
def describeNode (id : NodeId) : String :=
  describeFields "Node" [("id", id.describe), ("type", Text.quotedPlain (g.typeName id)),
    ("outputs", g.describeOutputs id)]

/-- The text of a binding. -/
def describeBinding (b : Binding) : String :=
  describeFields "Binding" [("socket", g.describeSocket b.socket),
    ("upstream", describeOption (b.feeder.map g.describeNode))]

/-- The text of a set of inputs. -/
def describeInputs (inputs : Inputs) : String :=
  describeFields "Inputs" [("slots", describeList (inputs.slots.map fun slot =>
    describeEntry slot.name (describeOption (slot.binding.map g.describeBinding))))]

end Graph

end PullGraph

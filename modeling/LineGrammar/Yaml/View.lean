import LineGrammar.Yaml.Layout
import LineGrammar.Yaml.Node.OfTokens

/-!
# Looking into YAML documents

A `View` is a node together with the anchors of its document, so that an alias looks like the node
that it stands for.
-/

namespace LineGrammar.Yaml

/-- A node of a document, with the nodes of the document that have anchors. -/
structure View where
  anchored : List (Nat × Node)
  node : Node

namespace View

/-- The whole of a document. -/
def ofRoot (root : Node) : View :=
  ⟨root.anchored, root⟩

/-- What the node is, or the node that it is an alias of. -/
def target (view : View) : Node :=
  match view.node with
  | .reference anchor => (view.anchored.reverse.lookup anchor).getD .missing
  | node => node

def move (view : View) (node : Node) : View :=
  { view with node }

def isMissing (view : View) : Bool :=
  match view.target with
  | .scalar _ .plain text => text == ""
  | _ => false

/-- A scalar as a text. -/
def text? (view : View) : Option String :=
  match view.target with
  | .scalar _ _ text => some text
  | _ => none

def items? (view : View) : Option (List View) :=
  match view.target with
  | .sequence _ items => some (items.map view.move)
  | _ => none

def entries? (view : View) : Option (List (View × View)) :=
  match view.target with
  | .mapping _ entries => some (entries.map fun (key, value) => (view.move key, view.move value))
  | _ => none

/-- Reads a YAML text that holds one document, or none at all. -/
def ofText? (text : String) : Option View :=
  (Token.ofText? text).bind fun tokens => (Node.ofAllTokens? tokens).map ofRoot

end View

end LineGrammar.Yaml

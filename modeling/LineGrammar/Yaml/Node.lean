import LineGrammar.Yaml.Token

/-!
# Nodes of YAML documents

A document is a tree of scalars, sequences and mappings. Nodes may have anchors, which are numbered,
and an alias stands for the last node whose anchor has its number. That node may lie further on and
even hold the alias, so aliases stay in the tree.
-/

namespace LineGrammar.Yaml

/-- What stands in front of a node. A tag that is no text counts as none. -/
structure Properties where
  anchor : Option Nat := none
  tag : Option String := none
  deriving DecidableEq, Repr

inductive Node where
  /-- An alias of the node with this anchor. -/
  | reference (anchor : Nat)
  | scalar (properties : Properties) (style : Style) (text : String)
  | sequence (properties : Properties) (items : List Node)
  | mapping (properties : Properties) (entries : List (Node × Node))

namespace Node

/-- What is left out is an empty scalar. -/
def missing : Node :=
  scalar {} .plain ""

def underAnchor (properties : Properties) (node : Node) : List (Nat × Node) :=
  properties.anchor.toList.map (·, node)

mutual

/-- The nodes with anchors in a node, in the order in which they start. -/
def anchored : Node → List (Nat × Node)
  | reference _ => []
  | scalar properties style text => underAnchor properties (scalar properties style text)
  | sequence properties items =>
    underAnchor properties (sequence properties items) ++ anchoredInItems items
  | mapping properties entries =>
    underAnchor properties (mapping properties entries) ++ anchoredInEntries entries

def anchoredInItems : List Node → List (Nat × Node)
  | [] => []
  | item :: items => anchored item ++ anchoredInItems items

def anchoredInEntries : List (Node × Node) → List (Nat × Node)
  | [] => []
  | (key, value) :: entries => anchored key ++ anchored value ++ anchoredInEntries entries

end

end Node

end LineGrammar.Yaml

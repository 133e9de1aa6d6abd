import LineGrammar.Tree

/-!
# Printing trees

Every node has a line of its own, indented by its depth: the symbol, and the token or else how far
the symbol has been read.
-/

namespace LineGrammar

def Completion.text : Completion → String
  | incomplete => "incomplete"
  | complete => "complete"
  | maybe => "maybe"

namespace Tree

/-- What the line of a node says behind its symbol. -/
def stateText (tree : Tree) : String :=
  match tree.token with
  | some token => "'" ++ token.text ++ "'"
  | none => "[" ++ tree.completion.text ++ (if tree.closed then ", closed" else "") ++ "]"

def lineText (tree : Tree) (depth : Nat) : String :=
  String.ofList (List.replicate (2 * depth) ' ') ++ tree.symbol ++ " " ++ tree.stateText ++ "\n"

mutual

def renderAt (depth : Nat) : Tree → String
  | tree@⟨_, _, _, _, _, children⟩ => tree.lineText depth ++ renderAllAt (depth + 1) children

def renderAllAt (depth : Nat) : List Tree → String
  | [] => ""
  | tree :: trees => renderAt depth tree ++ renderAllAt depth trees

end

def render (tree : Tree) : String :=
  renderAt 0 tree

end Tree

end LineGrammar

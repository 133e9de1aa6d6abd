import LineGrammar.Grammar
import LineGrammar.Parse.Edit

/-!
# Closing finished nodes

A node of a non-terminal is finished when a node follows it that may begin with what may follow the
non-terminal. Finished nodes are closed with all that is below them.
-/

namespace LineGrammar.Grammar

/-- Is a node finished, given the node after it? -/
def finishes (grammar : Grammar) (node : Tree) (next : Option Tree) : Bool :=
  match grammar.isNonTerminal node.symbol, grammar.followSet? node.symbol, next with
  | true, some follow, some next => follow.meets (grammar.firstOfSymbol next.symbol)
  | _, _, _ => false

mutual

/-- Closes the finished nodes below a node. Below closed nodes nothing is looked at. -/
def closeFinished (grammar : Grammar) : Tree → Tree
  | ⟨symbol, token, completion, closed, line, children⟩ =>
    ⟨symbol, token, completion, closed, line, closeFinishedAll grammar children⟩

def closeFinishedAll (grammar : Grammar) : List Tree → List Tree
  | [] => []
  | node :: rest =>
    (if node.closed then node
      else if grammar.finishes node rest.head? then node.close
      else closeFinished grammar node) :: closeFinishedAll grammar rest

end

mutual

/-- The edits by which finished nodes below a node are closed, in the order in which they are made.
-/
def closings (grammar : Grammar) : Tree → List Edit
  | ⟨_, _, _, _, _, children⟩ => closingsOfAll grammar 0 children

/-- The same for the children of a node from number `index` on. -/
def closingsOfAll (grammar : Grammar) (index : Nat) : List Tree → List Edit
  | [] => []
  | node :: rest =>
    (if node.closed then []
      else if grammar.finishes node rest.head? then [.closed [index] node.openPaths]
      else (closings grammar node).map (Edit.under index)) ++
      closingsOfAll grammar (index + 1) rest

end

end LineGrammar.Grammar

import LineGrammar.Token

/-!
# Syntax trees

A tree node has a symbol, perhaps a token, and children. It says how far its symbol has been read
and whether it is closed, that is, never to grow again. Nodes are named by paths: the list of the
positions of the children on the way from the root.
-/

namespace LineGrammar

/-- How far the symbol of a node has been read. -/
inductive Completion where
  | incomplete
  | complete
  /-- One alternative is complete, and a longer one may still be read. -/
  | maybe
  deriving DecidableEq, Repr

structure Tree where
  symbol : String
  token : Option Token
  completion : Completion
  closed : Bool
  /-- The line that added the node. -/
  line : Nat
  children : List Tree

/-- The way from the root to a node. -/
abbrev Path := List Nat

namespace Tree

def branch (symbol : String) (line : Nat) : Tree :=
  ⟨symbol, none, .incomplete, false, line, []⟩

/-- A node for a token, or for the empty text if it has none. -/
def leaf (symbol : String) (token : Option Token) (line : Nat) : Tree :=
  ⟨symbol, token, .complete, true, line, []⟩

def isLeaf (tree : Tree) : Bool :=
  tree.children.isEmpty

def isOpen (tree : Tree) : Bool :=
  !tree.closed && tree.completion != .complete

def nodeAt? (tree : Tree) : Path → Option Tree
  | [] => some tree
  | index :: path =>
    match tree.children[index]? with
    | some child => child.nodeAt? path
    | none => none

def modifyAt (change : Tree → Tree) (tree : Tree) : Path → Tree
  | [] => change tree
  | index :: path =>
    match tree.children[index]? with
    | some child =>
      { tree with children := tree.children.set index (child.modifyAt change path) }
    | none => tree

mutual

def size : Tree → Nat
  | ⟨_, _, _, _, _, children⟩ => sizeAll children + 1

def sizeAll : List Tree → Nat
  | [] => 0
  | tree :: trees => tree.size + sizeAll trees

end

mutual

def tokens : Tree → List Token
  | ⟨_, token, _, _, _, children⟩ => token.toList ++ tokensAll children

def tokensAll : List Tree → List Token
  | [] => []
  | tree :: trees => tree.tokens ++ tokensAll trees

end

mutual

def firstToken? : Tree → Option Token
  | ⟨_, some token, _, _, _, _⟩ => some token
  | ⟨_, none, _, _, _, children⟩ => firstTokenOfAll? children

def firstTokenOfAll? : List Tree → Option Token
  | [] => none
  | tree :: trees => tree.firstToken? <|> firstTokenOfAll? trees

end

mutual

def leaves : Tree → List Tree
  | tree@⟨_, _, _, _, _, children⟩ => if children.isEmpty then [tree] else leavesOfAll children

def leavesOfAll : List Tree → List Tree
  | [] => []
  | tree :: trees => tree.leaves ++ leavesOfAll trees

end

mutual

/-- The tree with its root closed, and with it all below that is not under a closed node. -/
def close : Tree → Tree
  | tree@⟨symbol, token, completion, closed, line, children⟩ =>
    if closed then tree else ⟨symbol, token, completion, true, line, closeAll children⟩

def closeAll : List Tree → List Tree
  | [] => []
  | tree :: trees => tree.close :: closeAll trees

end

mutual

/-- The paths of the nodes that closing the tree closes. -/
def openPaths : Tree → List Path
  | ⟨_, _, _, closed, _, children⟩ => if closed then [] else [] :: openPathsOfAll 0 children

/-- The same for the children of a node from number `index` on, as paths from that node. -/
def openPathsOfAll (index : Nat) : List Tree → List Path
  | [] => []
  | tree :: trees => tree.openPaths.map (index :: ·) ++ openPathsOfAll (index + 1) trees

end

end Tree

end LineGrammar

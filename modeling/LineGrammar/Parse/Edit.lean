import LineGrammar.Tree

/-!
# Edits

Adding tokens changes nodes that are in the tree already: they grow, or are marked complete, or are
closed. Every edit is recorded with what it takes to revert it, so that a line that does not fit in
the end can be taken back as a whole.
-/

namespace LineGrammar

/-- An edit of nodes that were in the tree before. -/
inductive Edit where
  /-- Nodes were put behind the first `children`, and the completion was overwritten. -/
  | grown (path : Path) (children : Nat) (completion : Completion)
  /-- The nodes at these paths below a node were closed. -/
  | closed (path : Path) (nodes : List Path)
  deriving DecidableEq, Repr

namespace Tree

/-- The node with only the first children, and with another completion. -/
def shrinkTo (children : Nat) (completion : Completion) (tree : Tree) : Tree :=
  { tree with children := tree.children.take children, completion }

def reopen (tree : Tree) : Tree :=
  { tree with closed := false }

/-- Reopens the nodes at these paths. -/
def reopenAll (paths : List Path) (tree : Tree) : Tree :=
  paths.foldl (fun tree path => tree.modifyAt reopen path) tree

end Tree

namespace Edit

def revert : Edit → Tree → Tree
  | grown path children completion, tree => tree.modifyAt (Tree.shrinkTo children completion) path
  | closed path nodes, tree => tree.modifyAt (Tree.reopenAll nodes) path

/-- Takes edits back, the latest of which comes first. -/
def revertAll (edits : List Edit) (tree : Tree) : Tree :=
  edits.foldl (fun tree edit => edit.revert tree) tree

/-- An edit of a child, as one of the node with the child at this index. -/
def under (index : Nat) : Edit → Edit
  | grown path children completion => grown (index :: path) children completion
  | closed path nodes => closed (index :: path) nodes

end Edit

end LineGrammar

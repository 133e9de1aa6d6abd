import LineGrammar.Tree

/-!
# All nodes of a tree

A property of all nodes of a tree, told by the node at the top and the trees below it, and what
closing a tree does to its nodes.
-/

namespace LineGrammar.Tree

/-- Each node of the tree has the property. -/
inductive Everywhere (property : Tree → Prop) : Tree → Prop where
  | intro {tree : Tree} (htree : property tree)
      (hchildren : ∀ child ∈ tree.children, Everywhere property child) : Everywhere property tree

namespace Everywhere

variable {property : Tree → Prop} {tree : Tree}

theorem here (h : tree.Everywhere property) : property tree := by
  cases h with
  | intro htree _ => exact htree

theorem child (h : tree.Everywhere property) :
    ∀ child ∈ tree.children, child.Everywhere property := by
  cases h with
  | intro _ hchildren => exact hchildren

theorem of_nodeAt? (h : tree.Everywhere property) {path : Path} {node : Tree}
    (hnode : tree.nodeAt? path = some node) : node.Everywhere property := by
  induction path generalizing tree with
  | nil =>
    obtain rfl : tree = node := by simpa [nodeAt?] using hnode
    exact h
  | cons index path ih =>
    rw [nodeAt?] at hnode
    split at hnode
    · next child hchild => exact ih (h.child child (List.mem_of_getElem? hchild)) hnode
    · simp at hnode

theorem mono {other : Tree → Prop} (hother : ∀ tree, property tree → other tree)
    (h : tree.Everywhere property) : tree.Everywhere other := by
  induction h with
  | intro htree _ ih => exact .intro (hother _ htree) ih

theorem of_forall (h : ∀ tree, property tree) : ∀ tree : Tree, tree.Everywhere property
  | ⟨symbol, token, completion, closed, line, children⟩ =>
    .intro (h _) fun child hchild =>
      have : sizeOf child < sizeOf children := List.sizeOf_lt_of_mem hchild
      of_forall h child

end Everywhere

theorem closeAll_eq_map (trees : List Tree) : closeAll trees = trees.map close := by
  induction trees with
  | nil => rfl
  | cons tree trees ih => rw [closeAll, ih, List.map_cons]

theorem close_of_closed {tree : Tree} (h : tree.closed = true) : tree.close = tree := by
  obtain ⟨symbol, token, completion, closed, line, children⟩ := tree
  rw [close, if_pos h]

theorem close_of_not_closed {tree : Tree} (h : tree.closed = false) :
    tree.close = { tree with closed := true, children := tree.children.map close } := by
  obtain ⟨symbol, token, completion, closed, line, children⟩ := tree
  dsimp only at h
  rw [close, if_neg (by simp [h]), closeAll_eq_map]

@[simp] theorem symbol_close (tree : Tree) : tree.close.symbol = tree.symbol := by
  cases h : tree.closed with
  | true => rw [close_of_closed h]
  | false => rw [close_of_not_closed h]

end LineGrammar.Tree

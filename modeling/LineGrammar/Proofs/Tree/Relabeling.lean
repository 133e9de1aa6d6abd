import LineGrammar.Parse.Growth
import LineGrammar.Proofs.Tree.Everywhere
import LineGrammar.Proofs.Tree.Paths

/-!
# Trees with other labels

Where each node is changed by itself (`Tree.Nodewise`), nodes stay at their paths. Tokens and line
numbers are labels of nodes: nothing looks at them when a node is searched for that can grow, or when
one is changed in its children, its completion or its closed flag. So with a change of labels
(`Tree.Relabels`) a tree grows at the same place, and it may be changed before or after.
-/

namespace LineGrammar

def Extension.mapNodes (change : Tree → Tree) (extension : Extension) : Extension :=
  { extension with nodes := extension.nodes.map change }

namespace Tree

/-- A change that is made to each node by itself, and keeps its symbol. -/
structure Nodewise (change : Tree → Tree) : Prop where
  symbol : ∀ tree, (change tree).symbol = tree.symbol
  putChildren : ∀ (tree : Tree) (children : List Tree),
    change { tree with children } = { change tree with children := children.map change }

/-- A change of nodes that also keeps how far they have been read and whether they are closed. -/
structure Relabels (change : Tree → Tree) : Prop extends Nodewise change where
  putState : ∀ (tree : Tree) (completion : Completion) (closed : Bool),
    change { tree with completion, closed } = { change tree with completion, closed }

namespace Nodewise

variable {change : Tree → Tree}

theorem children (h : Nodewise change) (tree : Tree) :
    (change tree).children = tree.children.map change := by
  obtain ⟨symbol, token, completion, closed, line, children⟩ := tree
  exact congrArg Tree.children
    (h.putChildren ⟨symbol, token, completion, closed, line, children⟩ children)

theorem map_symbol (h : Nodewise change) (trees : List Tree) :
    (trees.map change).map (·.symbol) = trees.map (·.symbol) := by
  rw [List.map_map]
  exact List.map_congr_left fun tree _ => h.symbol tree

theorem nodeAt? (h : Nodewise change) (tree : Tree) (path : Path) :
    (change tree).nodeAt? path = (tree.nodeAt? path).map change := by
  induction path generalizing tree with
  | nil => rfl
  | cons index path ih =>
    rw [Tree.nodeAt?, Tree.nodeAt?, h.children, List.getElem?_map]
    cases tree.children[index]? with
    | none => rfl
    | some child => exact ih child

theorem modifyAt (h : Nodewise change) {inner outer : Tree → Tree}
    (hinner : ∀ node : Tree, outer (change node) = change (inner node)) (tree : Tree)
    (path : Path) : (change tree).modifyAt outer path = change (tree.modifyAt inner path) := by
  induction path generalizing tree with
  | nil => rw [modifyAt_nil, modifyAt_nil, hinner]
  | cons index path ih =>
    rw [modifyAt_cons, modifyAt_cons, h.putChildren, h.children]
    congr 1
    apply List.ext_getElem?
    intro position
    rw [List.getElem?_map, List.getElem?_modify, List.getElem?_modify, List.getElem?_map]
    cases tree.children[position]? with
    | none => rfl
    | some child => by_cases hposition : index = position <;> simp [hposition, ih]

end Nodewise

namespace Relabels

variable {change : Tree → Tree}

theorem put (h : Relabels change) (tree : Tree) (completion : Completion) (closed : Bool)
    (children : List Tree) :
    change { tree with completion, closed, children } =
      { change tree with completion, closed, children := children.map change } := by
  have hstate := h.putState tree completion closed
  have hchildren := h.putChildren { tree with completion, closed } children
  rw [hstate] at hchildren
  exact hchildren

theorem eq (h : Relabels change) (tree : Tree) :
    change tree = { change tree with
      completion := tree.completion
      closed := tree.closed
      children := tree.children.map change } := by
  obtain ⟨symbol, token, completion, closed, line, children⟩ := tree
  exact h.put ⟨symbol, token, completion, closed, line, children⟩ completion closed children

theorem completion (h : Relabels change) (tree : Tree) :
    (change tree).completion = tree.completion := by
  rw [h.eq]

theorem closed (h : Relabels change) (tree : Tree) : (change tree).closed = tree.closed := by
  rw [h.eq]

/-! ## What is found -/

mutual

theorem last? (h : Relabels change) {wanted : Tree → Bool}
    (hwanted : ∀ tree, wanted (change tree) = wanted tree) :
    ∀ tree : Tree, (change tree).last? wanted = tree.last? wanted
  | ⟨symbol, token, completion, closed, line, children⟩ => by
    have hnode := hwanted ⟨symbol, token, completion, closed, line, children⟩
    rw [h.eq] at hnode ⊢
    rw [Tree.last?, Tree.last?, hnode, lastOfAll? h hwanted 0 children]

theorem lastOfAll? (h : Relabels change) {wanted : Tree → Bool}
    (hwanted : ∀ tree, wanted (change tree) = wanted tree) (index : Nat) :
    ∀ trees : List Tree, Tree.lastOfAll? wanted index (trees.map change) =
      Tree.lastOfAll? wanted index trees
  | [] => rfl
  | tree :: trees => by
    rw [List.map_cons, Tree.lastOfAll?, Tree.lastOfAll?, lastOfAll? h hwanted (index + 1) trees,
      last? h hwanted tree]

end

theorem growthPoint? (h : Relabels change) (tree : Tree) :
    (change tree).growthPoint? =
      tree.growthPoint?.map fun (path, node) => (path, change node) := by
  have hopen : ∀ tree : Tree, isOpen (change tree) = isOpen tree := fun tree => by
    rw [isOpen, isOpen, h.closed, h.completion]
  have hmay : ∀ tree : Tree, mayGoOn (change tree) = mayGoOn tree := fun tree => by
    rw [mayGoOn, mayGoOn, h.closed, h.completion]
  unfold Tree.growthPoint?
  rw [h.last? hopen]
  cases tree.last? isOpen with
  | none => rfl
  | some path =>
    dsimp only
    rw [h.nodeAt?]
    cases tree.nodeAt? path with
    | none => rfl
    | some node =>
      dsimp only [Option.map_some]
      rw [h.last? hmay]
      cases node.last? mayGoOn with
      | none => rfl
      | some inner =>
        dsimp only
        rw [h.nodeAt?]
        cases node.nodeAt? inner <;> rfl

mutual

theorem openPaths (h : Relabels change) :
    ∀ tree : Tree, (change tree).openPaths = tree.openPaths
  | ⟨symbol, token, completion, closed, line, children⟩ => by
    rw [h.eq, Tree.openPaths, Tree.openPaths, openPathsOfAll h 0 children]

theorem openPathsOfAll (h : Relabels change) (index : Nat) :
    ∀ trees : List Tree, Tree.openPathsOfAll index (trees.map change) =
      Tree.openPathsOfAll index trees
  | [] => rfl
  | tree :: trees => by
    rw [List.map_cons, Tree.openPathsOfAll, Tree.openPathsOfAll, openPaths h tree,
      openPathsOfAll h (index + 1) trees]

end

/-! ## What is changed -/

theorem extendBy (h : Relabels change) (extension : Extension) (tree : Tree) :
    Tree.extendBy (extension.mapNodes change) (change tree) =
      change (Tree.extendBy extension tree) := by
  unfold Tree.extendBy Extension.mapNodes
  rw [h.put tree extension.completion tree.closed, h.children, h.closed, List.map_append]

theorem markComplete (h : Relabels change) (tree : Tree) :
    (change tree).markComplete = change tree.markComplete := by
  unfold Tree.markComplete
  rw [h.put tree .complete tree.closed tree.children, h.eq tree]

mutual

theorem close (h : Relabels change) : ∀ tree : Tree, (change tree).close = change tree.close
  | ⟨symbol, token, completion, true, line, children⟩ => by
    have hclosed := h.closed ⟨symbol, token, completion, true, line, children⟩
    rw [close_of_closed hclosed]
    rfl
  | ⟨symbol, token, completion, false, line, children⟩ => by
    have hput := h.put ⟨symbol, token, completion, false, line, children⟩ completion true
      (Tree.closeAll children)
    rw [h.eq, Tree.close, Tree.close, if_neg Bool.false_ne_true, if_neg Bool.false_ne_true,
      closeAll h children]
    exact hput.symm

theorem closeAll (h : Relabels change) :
    ∀ trees : List Tree, Tree.closeAll (trees.map change) = (Tree.closeAll trees).map change
  | [] => rfl
  | tree :: trees => by
    rw [List.map_cons, Tree.closeAll, Tree.closeAll, List.map_cons, close h tree,
      closeAll h trees]

end

end Relabels

end Tree

end LineGrammar

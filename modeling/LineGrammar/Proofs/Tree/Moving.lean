import LineGrammar.Proofs.Token.Places
import LineGrammar.Proofs.Tree.Relabeling

/-!
# Trees with other places

The tokens of a tree know where they stood in the text. With other places for them (`Tree.moved`)
the tree is otherwise the same (`Tree.relabels_moved`).
-/

namespace LineGrammar

namespace Tree

variable (move : Place → Place)

mutual

def moved : Tree → Tree
  | ⟨symbol, token, completion, closed, line, children⟩ =>
    ⟨symbol, token.map (Token.moved move), completion, closed, line, movedAll children⟩

def movedAll : List Tree → List Tree
  | [] => []
  | tree :: trees => moved tree :: movedAll trees

end

theorem movedAll_eq_map (trees : List Tree) : movedAll move trees = trees.map (moved move) := by
  induction trees with
  | nil => rfl
  | cons tree trees ih => rw [movedAll, ih, List.map_cons]

theorem moved_eq (tree : Tree) : tree.moved move =
    { tree with
      token := tree.token.map (Token.moved move)
      children := tree.children.map (moved move) } := by
  obtain ⟨symbol, token, completion, closed, line, children⟩ := tree
  rw [moved, movedAll_eq_map]

theorem relabels_moved : Relabels (moved move) where
  symbol tree := by rw [moved_eq]
  putChildren tree children := by rw [moved_eq, moved_eq]
  putState tree completion closed := by rw [moved_eq, moved_eq]

@[simp] theorem symbol_moved (tree : Tree) : (tree.moved move).symbol = tree.symbol :=
  (relabels_moved move).symbol tree

@[simp] theorem line_moved (tree : Tree) : (tree.moved move).line = tree.line := by
  rw [moved_eq]

@[simp] theorem children_moved (tree : Tree) :
    (tree.moved move).children = tree.children.map (moved move) :=
  (relabels_moved move).children tree

@[simp] theorem map_lexeme_token_moved (tree : Tree) :
    (tree.moved move).token.map Token.lexeme = tree.token.map Token.lexeme := by
  rw [moved_eq, Option.map_map]
  rfl

/-! ## What is found -/

theorem nodeAt?_moved (tree : Tree) (path : Path) :
    (tree.moved move).nodeAt? path = (tree.nodeAt? path).map (moved move) :=
  (relabels_moved move).nodeAt? tree path

mutual

theorem leaves_moved : ∀ tree : Tree, (tree.moved move).leaves = tree.leaves.map (moved move)
  | ⟨symbol, token, completion, closed, line, []⟩ => rfl
  | ⟨symbol, token, completion, closed, line, child :: children⟩ => by
    have hall := leavesOfAll_moved (child :: children)
    rw [moved, leaves, leaves]
    exact hall

theorem leavesOfAll_moved :
    ∀ trees : List Tree, leavesOfAll (movedAll move trees) = (leavesOfAll trees).map (moved move)
  | [] => rfl
  | tree :: trees => by
    rw [movedAll, leavesOfAll, leavesOfAll, leaves_moved tree, leavesOfAll_moved trees,
      List.map_append]

end

mutual

theorem firstToken?_moved :
    ∀ tree : Tree, (tree.moved move).firstToken? = tree.firstToken?.map (Token.moved move)
  | ⟨_, some _, _, _, _, _⟩ => rfl
  | ⟨_, none, _, _, _, children⟩ => firstTokenOfAll?_moved children

theorem firstTokenOfAll?_moved :
    ∀ trees : List Tree,
      firstTokenOfAll? (movedAll move trees) = (firstTokenOfAll? trees).map (Token.moved move)
  | [] => rfl
  | tree :: trees => by
    rw [movedAll, firstTokenOfAll?, firstTokenOfAll?, firstToken?_moved tree,
      firstTokenOfAll?_moved trees]
    cases tree.firstToken? <;> rfl

end

end Tree

end LineGrammar

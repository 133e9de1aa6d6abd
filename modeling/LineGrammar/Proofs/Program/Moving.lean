import LineGrammar.Program.OfTree
import LineGrammar.Proofs.Tree.Moving

/-!
# Programs of trees at other places

Statements are made of what the tokens of a tree are, and faults name the line that the parse has
counted. So the program of a tree does not depend on where its tokens stood in the text
(`Program.ofTree_moved`).
-/

namespace LineGrammar

variable (move : Place → Place)

namespace Tree

/-! ## What is looked for -/

theorem bottom_moved : ∀ tree : Tree, (tree.moved move).bottom = tree.bottom.moved move
  | ⟨_, _, _, _, _, []⟩ => rfl
  | ⟨_, _, _, _, _, [only]⟩ => bottom_moved only
  | ⟨_, _, _, _, _, _ :: _ :: _⟩ => rfl

theorem soleMark?_moved (tree : Tree) : (tree.moved move).soleMark? = tree.soleMark? := by
  unfold soleMark?
  rw [bottom_moved, map_lexeme_token_moved]

theorem arithmeticOp?_moved (tree : Tree) :
    (tree.moved move).arithmeticOp? = tree.arithmeticOp? := by
  unfold arithmeticOp?
  rw [soleMark?_moved]

theorem isAssignmentMark_moved (tree : Tree) :
    (tree.moved move).isAssignmentMark = tree.isAssignmentMark := by
  have hspelling : (tree.moved move).token.bind Token.spelling =
      tree.token.bind Token.spelling := by
    rw [moved_eq]
    dsimp only
    cases tree.token <;> rfl
  unfold isAssignmentMark
  rw [hspelling]

theorem assignmentMark?_moved (trees : List Tree) :
    assignmentMark? (trees.map (moved move)) = assignmentMark? trees := by
  unfold assignmentMark?
  rw [List.findIdx?_map]
  exact congrArg (List.findIdx? · trees) (funext (isAssignmentMark_moved move))

theorem relation?_moved (trees : List Tree) :
    relation? (trees.map (moved move)) = relation? trees := by
  induction trees with
  | nil => rfl
  | cons tree trees ih => rw [List.map_cons, relation?, relation?, soleMark?_moved, ih]

theorem findBelow_moved (symbol : String) (depth : Nat) (level : List Tree) :
    findBelow symbol depth (level.map (moved move)) =
      (findBelow symbol depth level).map (moved move) := by
  induction depth generalizing level with
  | zero => rfl
  | succ depth ih =>
    have hnext : (level.map (moved move)).flatMap children =
        (level.flatMap children).map (moved move) := by
      rw [List.flatMap_map, List.map_flatMap]
      simp only [children_moved]
    have hfind : ((level.flatMap children).map (moved move)).find?
        (fun tree => tree.symbol == symbol) =
        ((level.flatMap children).find? fun tree => tree.symbol == symbol).map (moved move) := by
      rw [List.find?_map]
      congr 2
      funext tree
      exact congrArg (· == symbol) (symbol_moved move tree)
    rw [findBelow, findBelow, hnext, hfind, ih]
    cases (level.flatMap children).find? fun tree => tree.symbol == symbol <;> rfl

end Tree

namespace Assembly

variable {α : Type}

theorem require_moved (node : Tree) (part : StatementPart) (found : Option α) :
    require (node.moved move) part found = require node part found := by
  unfold require
  rw [Tree.symbol_moved, Tree.line_moved]

theorem require_map_bind {β γ : Type} (node : Tree) (part : StatementPart) (found : Option α)
    (change : α → β) (next : β → Assembling γ) :
    (require node part (found.map change) >>= next) =
      (require node part found >>= fun value => next (change value)) := by
  cases found <;> rfl

/-! ## Expressions -/

mutual

theorem expression_moved (array : String) :
    ∀ tree : Tree, expression array (tree.moved move) = expression array tree
  | ⟨symbol, token, completion, closed, line, children⟩ => by
    have hrequire (part : StatementPart) (found : Option Access) :=
      require_moved move ⟨symbol, token, completion, closed, line, children⟩ part found
    have hempty : (Tree.movedAll move children).isEmpty = children.isEmpty := by
      cases children <;> rfl
    have hlength : (Tree.movedAll move children).length = children.length := by
      rw [Tree.movedAll_eq_map, List.length_map]
    have hlexeme : (token.map (Token.moved move)).map Token.lexeme = token.map Token.lexeme := by
      cases token <;> rfl
    rw [Tree.moved] at hrequire ⊢
    rw [expression, expression, hempty, hlength, hlexeme, rowOf_moved array children]
    simp only [hrequire, expressionAt_moved array _ children]

theorem expressionAt_moved (array : String) :
    ∀ (position : Nat) (trees : List Tree),
      expressionAt array position (Tree.movedAll move trees) = expressionAt array position trees
  | _, [] => rfl
  | 0, tree :: _ => by
    rw [Tree.movedAll, expressionAt, expressionAt]
    exact expression_moved array tree
  | position + 1, _ :: trees => by
    rw [Tree.movedAll, expressionAt, expressionAt]
    exact expressionAt_moved array position trees

theorem rowOf_moved (array : String) :
    ∀ trees : List Tree, rowOf array (Tree.movedAll move trees) = rowOf array trees
  | [] => rfl
  | tree :: trees => by
    rw [Tree.movedAll, rowOf, rowOf, Tree.arithmeticOp?_moved, rowOf_moved array trees,
      expression_moved array tree]

end

theorem expressionAt_map_moved (array : String) (position : Nat) (trees : List Tree) :
    expressionAt array position (trees.map (Tree.moved move)) =
      expressionAt array position trees := by
  rw [← Tree.movedAll_eq_map, expressionAt_moved]

theorem rowValue_map_moved (array : String) (line : Nat) (trees : List Tree) :
    rowValue array line (trees.map (Tree.moved move)) = rowValue array line trees := by
  unfold rowValue
  rw [← Tree.movedAll_eq_map, rowOf_moved]

/-! ## Statements -/

variable (names : StatementNames) (node : Tree)

theorem assignment_moved : assignment names (node.moved move) = assignment names node := by
  unfold assignment
  simp only [require_moved, Tree.children_moved, Tree.symbol_moved, Tree.line_moved,
    Tree.assignmentMark?_moved, expressionAt_map_moved, rowValue_map_moved, ← List.map_drop]

theorem output_moved : output names (node.moved move) = output names node := by
  unfold output
  simp only [require_moved, Tree.children_moved, expressionAt_map_moved]

theorem call_moved : call names (node.moved move) = call names node := by
  unfold call
  simp only [require_moved, Tree.children_moved, expressionAt_map_moved, Tree.firstToken?_moved,
    require_map_bind]
  rfl

theorem comparison_moved : comparison names (node.moved move) = comparison names node := by
  have hcondition : Tree.findBelow names.condition 2 [node.moved move] =
      (Tree.findBelow names.condition 2 [node]).map (Tree.moved move) :=
    Tree.findBelow_moved move names.condition 2 [node]
  unfold comparison
  rw [hcondition, require_moved, require_map_bind]
  simp only [require_moved, Tree.children_moved, Tree.symbol_moved, Tree.line_moved,
    Tree.relation?_moved, expressionAt_map_moved, List.length_map]

mutual

theorem blockOf_moved : ∀ tree : Tree, blockOf names (tree.moved move) = blockOf names tree
  | ⟨symbol, token, completion, closed, line, children⟩ => by
    have hrequire {α : Type} (part : StatementPart) (found : Option α) :=
      require_moved move ⟨symbol, token, completion, closed, line, children⟩ part found
    have hassignment := assignment_moved move names
      ⟨symbol, token, completion, closed, line, children⟩
    have houtput := output_moved move names ⟨symbol, token, completion, closed, line, children⟩
    have hcall := call_moved move names ⟨symbol, token, completion, closed, line, children⟩
    have hcomparison := comparison_moved move names
      ⟨symbol, token, completion, closed, line, children⟩
    have hany : (Tree.movedAll move children).any (·.symbol == names.elseBranch) =
        children.any (·.symbol == names.elseBranch) := by
      rw [Tree.movedAll_eq_map, List.any_map]
      exact congrArg (children.any ·) (funext fun child =>
        congrArg (· == names.elseBranch) (Tree.symbol_moved move child))
    rw [Tree.moved] at hrequire hassignment houtput hcall hcomparison ⊢
    rw [blockOf, blockOf]
    simp only [hrequire, hassignment, houtput, hcall, hcomparison, hany,
      blockOfFirst_moved _ children, blockOfAll_moved children]

theorem blockOfAll_moved :
    ∀ trees : List Tree, blockOfAll names (Tree.movedAll move trees) = blockOfAll names trees
  | [] => rfl
  | tree :: trees => by
    rw [Tree.movedAll, blockOfAll, blockOfAll, blockOf_moved tree, blockOfAll_moved trees]

theorem blockOfFirst_moved (symbol : String) :
    ∀ trees : List Tree,
      blockOfFirst names symbol (Tree.movedAll move trees) = blockOfFirst names symbol trees
  | [] => rfl
  | tree :: trees => by
    rw [Tree.movedAll, blockOfFirst, blockOfFirst, Tree.symbol_moved, blockOf_moved tree,
      blockOfFirst_moved symbol trees]

end

end Assembly

theorem Program.ofTree_moved (names : StatementNames) (tree : Tree) (store : Store) :
    ofTree names (tree.moved move) store = ofTree names tree store := by
  unfold ofTree
  rw [Assembly.blockOf_moved]

end LineGrammar

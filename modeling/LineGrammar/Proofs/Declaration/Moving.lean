import LineGrammar.Declaration.Walk
import LineGrammar.Proofs.Tree.Moving

/-!
# Declarations at other places

What a tree declares does not depend on where its tokens stood: a walk through the tree with its
tokens at other places makes the same steps.
-/

namespace LineGrammar

variable (move : Place → Place)

namespace Declaration

theorem addLeaf_moved (declaration : Declaration) (leaf : Tree) :
    declaration.addLeaf (leaf.moved move) = declaration.addLeaf leaf := by
  unfold addLeaf
  rw [Tree.map_lexeme_token_moved, Tree.symbol_moved]

theorem ofTree_moved (tree : Tree) : ofTree (tree.moved move) = ofTree tree := by
  unfold ofTree
  rw [Tree.leaves_moved, List.foldl_map]
  simp only [addLeaf_moved]

theorem scopeAt_moved (node : Tree) : scopeAt (node.moved move) = scopeAt node := by
  unfold scopeAt
  rw [Tree.map_lexeme_token_moved]

theorem visit_moved (settings : Settings) (node : Tree) :
    visit settings (node.moved move) = visit settings node := by
  unfold visit
  rw [ofTree_moved, scopeAt_moved, Tree.symbol_moved, Tree.line_moved]

mutual

theorem visitAll_moved (settings : Settings) :
    ∀ tree : Tree, visitAll settings (tree.moved move) = visitAll settings tree
  | ⟨symbol, token, completion, closed, line, children⟩ => by
    have hvisit := visit_moved move settings ⟨symbol, token, completion, closed, line, children⟩
    rw [Tree.moved] at hvisit ⊢
    rw [visitAll, visitAll, hvisit, visitEach_moved settings children]

theorem visitEach_moved (settings : Settings) :
    ∀ trees : List Tree, visitEach settings (Tree.movedAll move trees) = visitEach settings trees
  | [] => rfl
  | tree :: trees => by
    rw [Tree.movedAll, visitEach, visitEach, visitAll_moved settings tree,
      visitEach_moved settings trees]

end

end Declaration

namespace DeclarationWalk

theorem childPaths_moved (path : Path) (node : Tree) :
    Tree.childPaths path (node.moved move) = Tree.childPaths path node := by
  unfold Tree.childPaths
  rw [Tree.children_moved, List.length_map]

theorem declareAt_moved (settings : Settings) (tree : Tree) (path : Path) :
    declareAt settings (tree.moved move) path = declareAt settings tree path := by
  unfold declareAt
  rw [Tree.nodeAt?_moved]
  cases tree.nodeAt? path with
  | none => rfl
  | some node => exact Declaration.visitAll_moved move settings node

theorem advance_cons {settings : Settings} {tree node : Tree} {path : Path}
    (h : tree.nodeAt? path = some node) (store : Store) (stack : List Path) :
    advance settings tree store (path :: stack) =
      if settings.statements.isLoop node.symbol then ⟨store, stack, .ok (some path)⟩
      else
        match (Declaration.visit settings node).run.run store with
        | (.error error, store) => ⟨store, stack, .error error⟩
        | (.ok true, store) => advance settings tree store (Tree.childPaths path node ++ stack)
        | (.ok false, store) => advance settings tree store stack := by
  rw [advance]
  split
  · next hnone => simp [h] at hnone
  · next other hother =>
    obtain rfl := Option.some.inj (h.symm.trans hother)
    rfl

theorem advance_moved (settings : Settings) (tree : Tree) (store : Store) (stack : List Path) :
    advance settings (tree.moved move) store stack = advance settings tree store stack := by
  have hmoved {path : Path} {node : Tree} (hnode : tree.nodeAt? path = some node) :
      (tree.moved move).nodeAt? path = some (node.moved move) := by
    rw [Tree.nodeAt?_moved, hnode, Option.map_some]
  fun_induction advance settings tree store stack with
  | case1 => rw [advance]
  | case2 store path stack hnone =>
    rw [advance]
    split
    · rfl
    · next hnode => simp [Tree.nodeAt?_moved, hnone] at hnode
  | case3 store path stack node hnode hloop =>
    rw [advance_cons (hmoved hnode), Tree.symbol_moved, if_pos hloop]
  | case4 store path stack node hnode hloop error after hvisit =>
    rw [advance_cons (hmoved hnode), Tree.symbol_moved, if_neg hloop, Declaration.visit_moved,
      hvisit]
  | case5 store path stack node hnode hloop after hvisit ih =>
    rw [advance_cons (hmoved hnode), Tree.symbol_moved, if_neg hloop, Declaration.visit_moved,
      hvisit, childPaths_moved]
    exact ih
  | case6 store path stack node hnode hloop after hvisit ih =>
    rw [advance_cons (hmoved hnode), Tree.symbol_moved, if_neg hloop, Declaration.visit_moved,
      hvisit]
    exact ih

theorem resume_moved (settings : Settings) (tree : Tree) (store : Store) (walk : DeclarationWalk) :
    walk.resume settings (tree.moved move) store = walk.resume settings tree store := by
  unfold resume walkOn
  simp only [declareAt_moved, advance_moved]

/-- A walk comes to the same whatever the places of the tokens are. -/
theorem run_moved (settings : Settings) (tree : Tree) (stops : Nat) (store : Store)
    (walk : DeclarationWalk) :
    walk.run settings (tree.moved move) stops store = walk.run settings tree stops store := by
  fun_induction run settings tree stops store walk with
  | case1 stops store walk failed after error hstep =>
    rw [run]
    split <;> simp_all [resume_moved]
  | case2 stops store walk last after hstep =>
    rw [run]
    split <;> simp_all [resume_moved]
  | case3 stops store walk resumed after hstep ih =>
    rw [run]
    split <;> simp_all [resume_moved]

end DeclarationWalk

end LineGrammar

import LineGrammar.Tree
import Mathlib.Data.List.Basic

/-!
# Changing the node at a path

How a change at a path looks from the node above it, and what two changes at one path come to.
-/

namespace LineGrammar.Tree

@[simp] theorem modifyAt_nil (change : Tree → Tree) (tree : Tree) :
    tree.modifyAt change [] = change tree := by
  cases tree
  rfl

theorem modifyAt_cons (change : Tree → Tree) (tree : Tree) (index : Nat) (path : Path) :
    tree.modifyAt change (index :: path) =
      { tree with
        children := tree.children.modify index fun child => child.modifyAt change path } := by
  obtain ⟨symbol, token, completion, closed, line, children⟩ := tree
  rw [modifyAt]
  split
  · next child hchild => rw [List.modify_eq_set_getElem?, hchild]; rfl
  · next hnone => rw [List.modify_eq_self (List.getElem?_eq_none_iff.mp hnone)]

theorem modifyAt_modifyAt (first second : Tree → Tree) (tree : Tree) (path : Path) :
    (tree.modifyAt first path).modifyAt second path =
      tree.modifyAt (fun node => second (first node)) path := by
  induction path generalizing tree with
  | nil => simp
  | cons index path ih =>
    simp only [modifyAt_cons, List.modify_modify_eq, Function.comp_def, ih]

theorem modify_length_append (change : Tree → Tree) (before : List Tree) (tree : Tree)
    (trees : List Tree) :
    (before ++ tree :: trees).modify before.length change = before ++ change tree :: trees := by
  induction before with
  | nil => rfl
  | cons first before ih =>
    rw [List.cons_append, List.length_cons, List.modify_succ_cons, ih, List.cons_append]

theorem modify_eq_self_of_getElem? {trees : List Tree} {index : Nat} {tree : Tree}
    {change : Tree → Tree} (h : trees[index]? = some tree) (hchange : change tree = tree) :
    trees.modify index change = trees := by
  apply List.ext_getElem?
  intro other
  rw [List.getElem?_modify]
  by_cases hother : index = other
  · subst hother
    simp [h, hchange]
  · simp [hother]

theorem forall_mem_modify {property : Tree → Prop} {trees : List Tree} {index : Nat} {tree : Tree}
    (change : Tree → Tree) (h : ∀ other ∈ trees, property other) (htree : trees[index]? = some tree)
    (hchange : property (change tree)) : ∀ other ∈ trees.modify index change, property other := by
  intro other hother
  obtain ⟨position, hposition⟩ := List.getElem?_of_mem hother
  rw [List.getElem?_modify] at hposition
  obtain ⟨before, hbefore, rfl⟩ := Option.map_eq_some_iff.mp hposition
  by_cases heq : index = position
  · subst heq
    obtain rfl := Option.some.inj (htree.symm.trans hbefore)
    rwa [if_pos rfl]
  · rw [if_neg heq]
    exact h before (List.mem_of_getElem? hbefore)

theorem eq_of_nodeAt?_of_nil {tree node : Tree} {path : Path} (hnone : tree.children = [])
    (hnode : tree.nodeAt? path = some node) : path = [] ∧ node = tree := by
  cases path with
  | nil => exact ⟨rfl, (Option.some.inj hnode).symm⟩
  | cons index path => simp [nodeAt?, hnone] at hnode

theorem modifyAt_eq_self {change : Tree → Tree} {tree node : Tree} {path : Path}
    (hnode : tree.nodeAt? path = some node) (hchange : change node = node) :
    tree.modifyAt change path = tree := by
  induction path generalizing tree with
  | nil =>
    obtain rfl : tree = node := by simpa [nodeAt?] using hnode
    rw [modifyAt_nil, hchange]
  | cons index path ih =>
    obtain ⟨symbol, token, completion, closed, line, children⟩ := tree
    rw [nodeAt?] at hnode
    split at hnode
    · next child hchild => rw [modifyAt_cons, modify_eq_self_of_getElem? hchild (ih hnode)]
    · simp at hnode

end LineGrammar.Tree

import LineGrammar.Declaration.Walk
import Mathlib.Data.List.Flatten

/-!
# The nodes of a tree in order

Going down a tree from the root and from left to right, and not below some nodes, reaches all nodes
but those that have one of these above them. What is reached from the paths of a stack is told by
the nodes at these paths.
-/

namespace LineGrammar.Tree

/-- Puts the position of a child in front of the path to a node below the child. -/
def atChild (index : Nat) (found : Path × Tree) : Path × Tree :=
  (index :: found.1, found.2)

mutual

/-- The nodes that are reached from the root without going below those where to stop. -/
def reached (stop : Tree → Bool) : Tree → List (Path × Tree)
  | tree@⟨_, _, _, _, _, children⟩ =>
    ([], tree) :: if stop tree then [] else reachedEach stop 0 children

def reachedEach (stop : Tree → Bool) (index : Nat) : List Tree → List (Path × Tree)
  | [] => []
  | tree :: trees => (tree.reached stop).map (atChild index) ++ reachedEach stop (index + 1) trees

end

/-- All nodes of a tree, each before those below it, and from left to right. -/
def nodes (tree : Tree) : List (Path × Tree) :=
  tree.reached fun _ => false

def hasAbove (wanted : Tree → Bool) (tree : Tree) : Path → Bool
  | [] => false
  | index :: path =>
    wanted tree || (tree.children[index]?).any fun child => child.hasAbove wanted path

theorem reached_eq (stop : Tree → Bool) (tree : Tree) :
    tree.reached stop =
      ([], tree) :: if stop tree then [] else reachedEach stop 0 tree.children := by
  obtain ⟨symbol, token, completion, closed, line, children⟩ := tree
  rw [reached]

/-! ## What is reached -/

theorem filter_map_atChild (stop : Tree → Bool) {tree child : Tree} {index : Nat}
    (hstop : stop tree = false) (hchild : tree.children[index]? = some child)
    (found : List (Path × Tree)) :
    (found.map (atChild index)).filter (fun node => !tree.hasAbove stop node.1) =
      (found.filter fun node => !child.hasAbove stop node.1).map (atChild index) := by
  rw [List.filter_map]
  congr 2
  funext node
  simp [atChild, hasAbove, hstop, hchild]

theorem hasAbove_of_mem_reachedEach {stop other : Tree → Bool} {tree : Tree}
    (hstop : stop tree = true) {index : Nat} {trees : List Tree} {found : Path × Tree}
    (h : found ∈ reachedEach other index trees) : tree.hasAbove stop found.1 = true := by
  induction trees generalizing index with
  | nil => simp [reachedEach] at h
  | cons first rest ih =>
    rw [reachedEach, List.mem_append] at h
    rcases h with h | h
    · obtain ⟨below, -, rfl⟩ := List.mem_map.mp h
      simp [atChild, hasAbove, hstop]
    · exact ih h

mutual

/-- What is reached are the nodes that have none above them where to stop. -/
theorem reached_eq_filter (stop : Tree → Bool) : ∀ tree : Tree,
    tree.reached stop = tree.nodes.filter fun node => !tree.hasAbove stop node.1
  | ⟨symbol, token, completion, closed, line, children⟩ => by
    rw [nodes, reached, reached, List.filter_cons_of_pos (by simp [hasAbove])]
    congr 1
    by_cases hstop : stop ⟨symbol, token, completion, closed, line, children⟩ = true
    · rw [if_pos hstop, if_neg (by simp), eq_comm, List.filter_eq_nil_iff]
      intro found hfound
      simp [hasAbove_of_mem_reachedEach hstop hfound]
    · rw [if_neg hstop, if_neg (by simp)]
      exact reachedEach_eq_filter stop children 0 (Bool.eq_false_iff.mpr hstop) fun _ => by simp

theorem reachedEach_eq_filter (stop : Tree → Bool) {tree : Tree} : ∀ (trees : List Tree)
    (index : Nat), stop tree = false → (∀ i, tree.children[index + i]? = trees[i]?) →
    reachedEach stop index trees =
      (reachedEach (fun _ => false) index trees).filter fun node => !tree.hasAbove stop node.1
  | [], _, _, _ => rfl
  | first :: rest, index, hstop, htrees => by
    have hrest : ∀ i, tree.children[index + 1 + i]? = rest[i]? := by
      intro i
      rw [Nat.add_assoc, Nat.add_comm 1 i, htrees]
      rfl
    have hfirst : tree.children[index]? = some first := htrees 0
    rw [reachedEach, reachedEach, List.filter_append,
      filter_map_atChild stop hstop hfirst, reached_eq_filter stop first,
      reachedEach_eq_filter stop rest (index + 1) hstop hrest]
    rfl

end

/-! ## What is reached from paths -/

/-- Puts the path to a node in front of the path from there. -/
def under (path : Path) (found : Path × Tree) : Path × Tree :=
  (path ++ found.1, found.2)

/-- What is reached from the node at a path. -/
def reachedAt (stop : Tree → Bool) (tree : Tree) (path : Path) : List (Path × Tree) :=
  match tree.nodeAt? path with
  | some node => (node.reached stop).map (under path)
  | none => []

/-- What is reached from the nodes at the paths of a stack. -/
def reachedAtAll (stop : Tree → Bool) (tree : Tree) (stack : List Path) : List (Path × Tree) :=
  stack.flatMap (tree.reachedAt stop)

variable {stop : Tree → Bool} {tree node : Tree} {path : Path}

@[simp] theorem reachedAtAll_nil : tree.reachedAtAll stop [] = [] := rfl

theorem reachedAtAll_cons (stack : List Path) :
    tree.reachedAtAll stop (path :: stack) =
      tree.reachedAt stop path ++ tree.reachedAtAll stop stack := rfl

theorem reachedAtAll_append (stack more : List Path) :
    tree.reachedAtAll stop (stack ++ more) =
      tree.reachedAtAll stop stack ++ tree.reachedAtAll stop more :=
  List.flatMap_append

@[simp] theorem reachedAtAll_root : tree.reachedAtAll stop [[]] = tree.reached stop := by
  have hunder : under [] = id := rfl
  simp [reachedAtAll, reachedAt, nodeAt?, hunder]

theorem reachedAt_of_nodeAt? (h : tree.nodeAt? path = some node) :
    tree.reachedAt stop path = (node.reached stop).map (under path) := by
  rw [reachedAt, h]

theorem under_atChild (index : Nat) (found : List (Path × Tree)) :
    (found.map (atChild index)).map (under path) = found.map (under (path ++ [index])) := by
  simp [List.map_map, Function.comp_def, under, atChild]

theorem reachedEach_under {trees : List Tree} {index : Nat}
    (h : ∀ i, tree.nodeAt? (path ++ [index + i]) = trees[i]?) :
    (reachedEach stop index trees).map (under path) =
      tree.reachedAtAll stop ((List.range' index trees.length).map fun i => path ++ [i]) := by
  induction trees generalizing index with
  | nil => rfl
  | cons first rest ih =>
    have hrest : ∀ i, tree.nodeAt? (path ++ [index + 1 + i]) = rest[i]? := by
      intro i
      rw [Nat.add_assoc, Nat.add_comm 1 i, h]
      rfl
    have hfirst : tree.nodeAt? (path ++ [index]) = some first := h 0
    rw [reachedEach, List.map_append, under_atChild, ih hrest, List.length_cons, List.range'_succ,
      List.map_cons, reachedAtAll_cons, reachedAt_of_nodeAt? hfirst]

theorem reachedAt_eq (h : tree.nodeAt? path = some node) :
    tree.reachedAt stop path =
      (path, node) :: if stop node then [] else tree.reachedAtAll stop (childPaths path node) := by
  have hroot : under path ([], node) = (path, node) := by simp [under]
  rw [reachedAt_of_nodeAt? h, reached_eq, List.map_cons, hroot]
  congr 1
  split
  · rfl
  · rw [childPaths, List.range_eq_range', reachedEach_under]
    intro i
    rw [nodeAt?_concat h, Nat.zero_add]

theorem reachedAtAll_eq (h : tree.nodeAt? path = some node) (stack : List Path) :
    tree.reachedAtAll stop (path :: stack) =
      (path, node) ::
        tree.reachedAtAll stop ((if stop node then [] else childPaths path node) ++ stack) := by
  rw [reachedAtAll_cons, reachedAt_eq h, reachedAtAll_append]
  split <;> rfl

end LineGrammar.Tree

import LineGrammar.Tree

/-!
# The last node of a kind

`Tree.last?` finds the last node in the order of a walk from the root down and from left to right.
The children of a closed node are not looked at.
-/

namespace LineGrammar.Tree

mutual

/-- The path of the last node with a property. -/
def last? (wanted : Tree → Bool) : Tree → Option Path
  | tree@⟨_, _, _, closed, _, children⟩ =>
    match (if closed then none else lastOfAll? wanted 0 children) with
    | some path => some path
    | none => if wanted tree then some [] else none

/-- The same among the children of a node from number `index` on, as a path from that node. -/
def lastOfAll? (wanted : Tree → Bool) (index : Nat) : List Tree → Option Path
  | [] => none
  | tree :: trees =>
    match lastOfAll? wanted (index + 1) trees with
    | some path => some path
    | none => (tree.last? wanted).map (index :: ·)

end

/-- A way down to a node, on which no node above it is closed. -/
inductive Way : Tree → Path → Tree → Prop where
  | here {node : Tree} : Way node [] node
  | under {tree child node : Tree} {index : Nat} {path : Path} (hopen : tree.closed = false)
      (hchild : tree.children[index]? = some child) (hway : Way child path node) :
      Way tree (index :: path) node

theorem Way.nodeAt? {tree node : Tree} {path : Path} (h : Way tree path node) :
    tree.nodeAt? path = some node := by
  induction h with
  | here => rfl
  | under _ hchild _ ih =>
    rw [Tree.nodeAt?, hchild]
    exact ih

mutual

/-- The node that is found has the property, and no node above it is closed. -/
theorem way_of_last? {wanted : Tree → Bool} :
    ∀ {tree : Tree} {path : Path}, tree.last? wanted = some path →
      ∃ node, Way tree path node ∧ wanted node = true
  | ⟨symbol, token, completion, closed, line, children⟩, path, h => by
    unfold last? at h
    split at h
    · next found hfound =>
      obtain rfl := Option.some.inj h
      split at hfound
      · simp at hfound
      · next hopen =>
        obtain ⟨offset, rest, child, rfl, hchild, node, hway, hwanted⟩ :=
          way_of_lastOfAll? hfound
        rw [Nat.zero_add]
        exact ⟨node, .under (by simpa using hopen) hchild hway, hwanted⟩
    · split at h
      · next hwanted =>
        obtain rfl := Option.some.inj h
        exact ⟨_, .here, hwanted⟩
      · simp at h

theorem way_of_lastOfAll? {wanted : Tree → Bool} {index : Nat} :
    ∀ {trees : List Tree} {path : Path}, lastOfAll? wanted index trees = some path →
      ∃ offset rest child, path = (index + offset) :: rest ∧ trees[offset]? = some child ∧
        ∃ node, Way child rest node ∧ wanted node = true
  | [], path, h => by simp [lastOfAll?] at h
  | tree :: trees, path, h => by
    unfold lastOfAll? at h
    split at h
    · next found hfound =>
      obtain rfl := Option.some.inj h
      obtain ⟨offset, rest, child, rfl, hchild, hway⟩ := way_of_lastOfAll? hfound
      exact ⟨offset + 1, rest, child, by simp; omega, by simpa using hchild, hway⟩
    · obtain ⟨rest, hrest, rfl⟩ := Option.map_eq_some_iff.mp h
      exact ⟨0, rest, tree, rfl, rfl, way_of_last? hrest⟩

end

theorem nodeAt?_of_last? {wanted : Tree → Bool} {tree : Tree} {path : Path}
    (h : tree.last? wanted = some path) :
    ∃ node, tree.nodeAt? path = some node ∧ wanted node = true := by
  obtain ⟨node, hway, hwanted⟩ := way_of_last? h
  exact ⟨node, hway.nodeAt?, hwanted⟩

end LineGrammar.Tree

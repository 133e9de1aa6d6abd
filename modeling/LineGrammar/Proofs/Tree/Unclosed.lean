import LineGrammar.Proofs.Parse.TokenOrder
import LineGrammar.Proofs.Tree.Everywhere
import LineGrammar.Proofs.Tree.Relabeling

/-!
# Trees without closed flags

A closed flag keeps the search for a node that can grow from looking at what is below. Where only
whole trees are closed, that is, trees with all nodes complete (`Tree.ClosedWhole`), it would find
nothing there: the tree with all flags taken away (`Tree.unclosed`) grows at the same place
(`Tree.growthPoint?_unclosed`). That only whole trees are closed stays so when a node changes that
is not complete (`Tree.ClosedWhole.modifyAt`).
-/

namespace LineGrammar

namespace Tree

mutual

/-- The tree with no node closed. -/
def unclosed : Tree → Tree
  | ⟨symbol, token, completion, _, line, children⟩ =>
    ⟨symbol, token, completion, false, line, unclosedAll children⟩

def unclosedAll : List Tree → List Tree
  | [] => []
  | tree :: trees => tree.unclosed :: unclosedAll trees

end

def Whole (tree : Tree) : Prop :=
  tree.Everywhere fun node => node.completion = .complete

/-- Where a node is closed, it is whole. -/
def ClosedWhole (tree : Tree) : Prop :=
  tree.Everywhere fun node => node.closed = true → node.Whole

variable {tree : Tree}

theorem unclosedAll_eq_map (trees : List Tree) : unclosedAll trees = trees.map unclosed := by
  induction trees with
  | nil => rfl
  | cons tree trees ih => rw [unclosedAll, ih, List.map_cons]

theorem unclosed_eq (tree : Tree) :
    tree.unclosed = { tree with closed := false, children := tree.children.map unclosed } := by
  obtain ⟨symbol, token, completion, closed, line, children⟩ := tree
  rw [unclosed, unclosedAll_eq_map]

theorem nodewise_unclosed : Nodewise unclosed where
  symbol tree := by rw [unclosed_eq]
  putChildren tree children := by rw [unclosed_eq, unclosed_eq]

mutual

theorem unclosed_close : ∀ tree : Tree, tree.close.unclosed = tree.unclosed
  | ⟨symbol, token, completion, true, line, children⟩ => rfl
  | ⟨symbol, token, completion, false, line, children⟩ => by
    rw [close, if_neg (by simp), unclosed, unclosed, unclosedAll_closeAll]

theorem unclosedAll_closeAll :
    ∀ trees : List Tree, unclosedAll (closeAll trees) = unclosedAll trees
  | [] => rfl
  | tree :: trees => by
    rw [closeAll, unclosedAll, unclosedAll, unclosed_close tree, unclosedAll_closeAll trees]

end

/-! ## Properties that do not depend on closed flags -/

theorem Everywhere.unclosed {property : Tree → Prop}
    (hproperty : ∀ tree, property tree → property tree.unclosed) (h : tree.Everywhere property) :
    tree.unclosed.Everywhere property := by
  induction h with
  | intro htree _ ih =>
    have hnode := hproperty _ htree
    rw [unclosed_eq] at hnode ⊢
    exact .intro hnode (List.forall_mem_map.mpr ih)

theorem Everywhere.of_unclosed {property : Tree → Prop}
    (hproperty : ∀ tree, property tree.unclosed → property tree) :
    ∀ {tree : Tree}, tree.unclosed.Everywhere property → tree.Everywhere property
  | ⟨symbol, token, completion, closed, line, children⟩, h =>
    .intro (hproperty _ h.here) fun child hchild =>
      have : sizeOf child < sizeOf children := List.sizeOf_lt_of_mem hchild
      .of_unclosed hproperty (h.child child.unclosed (by
        rw [unclosed_eq]
        exact List.mem_map_of_mem hchild))

/-! ## Whole trees -/

theorem Whole.settled (h : tree.Whole) : tree.Settled := by
  induction h with
  | @intro tree hcomplete _ ih =>
    obtain ⟨symbol, token, completion, closed, line, children⟩ := tree
    exact .inr ⟨hcomplete, settledAll_iff.mpr ih⟩

theorem Whole.unclosed (h : tree.Whole) : tree.unclosed.Whole :=
  Everywhere.unclosed (fun tree hcomplete => by rwa [unclosed_eq]) h

theorem Whole.of_unclosed (h : tree.unclosed.Whole) : tree.Whole :=
  Everywhere.of_unclosed (fun tree hcomplete => by rwa [unclosed_eq] at hcomplete) h

theorem Whole.of_alike {other : Tree} (h : tree.Whole) (halike : other.unclosed = tree.unclosed) :
    other.Whole :=
  .of_unclosed (halike ▸ h.unclosed)

theorem Whole.closedWhole (h : tree.Whole) : tree.ClosedWhole := by
  induction h with
  | intro hcomplete hchildren ih => exact .intro (fun _ => .intro hcomplete hchildren) ih

/-- What cannot grow is whole, if closed flags hide nothing. -/
theorem ClosedWhole.whole_of_settled (h : tree.ClosedWhole) (hsettled : tree.Settled) :
    tree.Whole := by
  induction h with
  | @intro tree hclosed _ ih =>
    obtain ⟨symbol, token, completion, closed, line, children⟩ := tree
    rcases hsettled with heq | ⟨hcomplete, hchildren⟩
    · exact hclosed heq
    · exact .intro hcomplete fun child hchild =>
        ih child hchild (settledAll_iff.mp hchildren child hchild)

theorem closedWhole_leaf (symbol : String) (token : Option Token) (line : Nat) :
    (leaf symbol token line).ClosedWhole :=
  Whole.closedWhole (.intro rfl (by simp [leaf]))

theorem closedWhole_of_open (hclosed : tree.closed = false)
    (hchildren : ∀ child ∈ tree.children, child.ClosedWhole) : tree.ClosedWhole :=
  .intro (fun h => absurd (h.symm.trans hclosed) (by simp)) hchildren

/-! ## Where the tree grows -/

mutual

theorem last?_unclosed {wanted : Tree → Bool}
    (hwanted : ∀ tree, wanted tree = true → tree.closed = false ∧ tree.completion ≠ .complete)
    (hsame : ∀ tree, tree.closed = false → wanted tree.unclosed = wanted tree) :
    ∀ {tree : Tree}, tree.ClosedWhole → tree.unclosed.last? wanted = tree.last? wanted
  | ⟨symbol, token, completion, true, line, children⟩, h => by
    have hwhole := h.here rfl
    rw [last?_eq_none_of_settled hwanted hwhole.unclosed.settled,
      last?_eq_none_of_settled hwanted (settled_of_closed rfl)]
  | ⟨symbol, token, completion, false, line, children⟩, h => by
    have hnode := hsame ⟨symbol, token, completion, false, line, children⟩ rfl
    rw [unclosed] at hnode ⊢
    rw [last?, last?, hnode]
    simp only [Bool.false_eq_true, if_false]
    rw [lastOfAll?_unclosed hwanted hsame h.child]

theorem lastOfAll?_unclosed {wanted : Tree → Bool} {index : Nat}
    (hwanted : ∀ tree, wanted tree = true → tree.closed = false ∧ tree.completion ≠ .complete)
    (hsame : ∀ tree, tree.closed = false → wanted tree.unclosed = wanted tree) :
    ∀ {trees : List Tree}, (∀ tree ∈ trees, tree.ClosedWhole) →
      lastOfAll? wanted index (unclosedAll trees) = lastOfAll? wanted index trees
  | [], _ => rfl
  | tree :: trees, h => by
    obtain ⟨htree, htrees⟩ := List.forall_mem_cons.mp h
    rw [unclosedAll, lastOfAll?, lastOfAll?, lastOfAll?_unclosed hwanted hsame htrees,
      last?_unclosed hwanted hsame htree]

end

theorem growthPoint?_unclosed (h : tree.ClosedWhole) :
    tree.unclosed.growthPoint? =
      tree.growthPoint?.map fun (path, node) => (path, node.unclosed) := by
  have hopen : ∀ {tree : Tree}, tree.ClosedWhole → tree.unclosed.last? isOpen = tree.last? isOpen :=
    last?_unclosed closed_and_completion_of_isOpen fun tree hclosed => by
      simp [isOpen, unclosed_eq, hclosed]
  have hmay : ∀ {tree : Tree}, tree.ClosedWhole →
      tree.unclosed.last? mayGoOn = tree.last? mayGoOn :=
    last?_unclosed closed_and_completion_of_mayGoOn fun tree hclosed => by
      simp [mayGoOn, unclosed_eq, hclosed]
  unfold growthPoint?
  rw [hopen h]
  cases tree.last? isOpen with
  | none => rfl
  | some path =>
    dsimp only
    rw [nodewise_unclosed.nodeAt?]
    cases hnode : tree.nodeAt? path with
    | none => rfl
    | some node =>
      dsimp only [Option.map_some]
      rw [hmay (h.of_nodeAt? hnode)]
      cases node.last? mayGoOn with
      | none => rfl
      | some inner =>
        dsimp only
        rw [nodewise_unclosed.nodeAt?]
        cases node.nodeAt? inner <;> rfl

/-! ## Changes of a node -/

theorem unclosed_modifyAt {change other : Tree → Tree}
    (hchange : ∀ node : Tree, (change node).unclosed = other node.unclosed) (tree : Tree)
    (path : Path) : (tree.modifyAt change path).unclosed = tree.unclosed.modifyAt other path :=
  (nodewise_unclosed.modifyAt (fun node => (hchange node).symm) tree path).symm

theorem unclosed_markComplete (tree : Tree) :
    tree.markComplete.unclosed = tree.unclosed.markComplete := by
  simp [markComplete, unclosed_eq]

theorem unclosed_extendBy (extension : Extension) (tree : Tree) :
    (extendBy extension tree).unclosed =
      extendBy { extension with nodes := extension.nodes.map unclosed } tree.unclosed := by
  simp [extendBy, unclosed_eq]

mutual

theorem unclosed_unclosed : ∀ tree : Tree, tree.unclosed.unclosed = tree.unclosed
  | ⟨symbol, token, completion, closed, line, children⟩ => by
    rw [unclosed, unclosed, unclosedAll_unclosedAll]

theorem unclosedAll_unclosedAll :
    ∀ trees : List Tree, unclosedAll (unclosedAll trees) = unclosedAll trees
  | [] => rfl
  | tree :: trees => by
    rw [unclosedAll, unclosedAll, unclosed_unclosed tree, unclosedAll_unclosedAll trees]

end

/-- Above a node that is not complete nothing is closed. -/
theorem ClosedWhole.closed_eq_false {node : Tree} {path : Path} (h : tree.ClosedWhole)
    (hnode : tree.nodeAt? path = some node) (hcompletion : node.completion ≠ .complete) :
    tree.closed = false := by
  by_contra hyes
  have hwhole := h.here (by simpa using hyes)
  exact hcompletion (hwhole.of_nodeAt? hnode).here

theorem ClosedWhole.closed_eq_false_of_ne (h : tree.ClosedWhole)
    (hcompletion : tree.completion ≠ .complete) : tree.closed = false :=
  have hhere : tree.nodeAt? [] = some tree := rfl
  h.closed_eq_false hhere hcompletion

/-- A change of a node that is not complete keeps closed flags from hiding anything. -/
theorem ClosedWhole.modifyAt {change : Tree → Tree} {node : Tree} {path : Path}
    (h : tree.ClosedWhole) (hnode : tree.nodeAt? path = some node)
    (hcompletion : node.completion ≠ .complete) (hchange : (change node).ClosedWhole) :
    (tree.modifyAt change path).ClosedWhole := by
  induction path generalizing tree with
  | nil =>
    obtain rfl : tree = node := by simpa [nodeAt?] using hnode
    rwa [modifyAt_nil]
  | cons index path ih =>
    have hclosed := h.closed_eq_false hnode hcompletion
    rw [nodeAt?] at hnode
    cases hchild : tree.children[index]? with
    | none => simp [hchild] at hnode
    | some child =>
      rw [hchild] at hnode
      have hwhole := h.child child (List.mem_of_getElem? hchild)
      have hbelow := forall_mem_modify (fun child => child.modifyAt change path) h.child hchild
        (ih hwhole hnode)
      rw [modifyAt_cons]
      exact closedWhole_of_open hclosed hbelow

end Tree

end LineGrammar

import LineGrammar.Parse.Closing
import LineGrammar.Parse.Extension
import LineGrammar.Tree.Search

/-!
# Growing a tree

Tokens are added to a tree where it is open: at the last open node, or at the last node below that
one that is complete but may be read on. A node that cannot take the next token is marked complete,
and the next place is tried. When some tokens have been taken, finished nodes are closed and the
rest is added in the same way. All edits are recorded, so that they can be reverted when a token does
not fit.

Marking a node complete leaves fewer nodes to try, and a node that grows takes at least one token;
so the growth ends.
-/

namespace LineGrammar

/-- Why a line cannot be added. -/
inductive ParseError where
  | noStartSymbol
  /-- No alternative gets past this token. -/
  | noMatch (token : Token)
  deriving DecidableEq

def ParseError.message : ParseError → String
  | noStartSymbol => "Grammar has no start symbol"
  | noMatch token =>
    "No rule accepts '" ++ token.text ++ "' at " ++ token.place.describe

namespace Tree

mutual

/-- The number of nodes that are not complete. -/
def unfinished : Tree → Nat
  | ⟨_, _, completion, _, _, children⟩ =>
    (if completion = .complete then 0 else 1) + unfinishedAll children

def unfinishedAll : List Tree → Nat
  | [] => 0
  | tree :: trees => tree.unfinished + unfinishedAll trees

end

def markComplete (tree : Tree) : Tree :=
  { tree with completion := .complete }

def extendBy (extension : Extension) (tree : Tree) : Tree :=
  { tree with
    children := tree.children ++ extension.nodes
    completion := extension.completion }

/-- Is the node complete for now, with more to be read perhaps? -/
def mayGoOn (tree : Tree) : Bool :=
  !tree.closed && tree.completion == .maybe

/-- Where the next tokens are tried, and the node there. -/
def growthPoint? (tree : Tree) : Option (Path × Tree) :=
  match tree.last? isOpen with
  | none => none
  | some path =>
    match tree.nodeAt? path with
    | none => none
    | some node =>
      match node.last? mayGoOn with
      | none => some (path, node)
      | some inner => (node.nodeAt? inner).map fun innerNode => (path ++ inner, innerNode)

theorem nodeAt?_append {tree node : Tree} {path : Path} (h : tree.nodeAt? path = some node)
    (inner : Path) : tree.nodeAt? (path ++ inner) = node.nodeAt? inner := by
  induction path generalizing tree with
  | nil => simp_all [nodeAt?]
  | cons index path ih =>
    simp only [nodeAt?, List.cons_append] at h ⊢
    split at h
    · next child hchild => simp only [ih h]
    · simp at h

theorem growthPoint?_spec {tree node : Tree} {path : Path}
    (h : tree.growthPoint? = some (path, node)) :
    tree.nodeAt? path = some node ∧ node.completion ≠ .complete := by
  unfold growthPoint? at h
  split at h
  · simp at h
  · next outer houter =>
    split at h
    · simp at h
    · next found hfound =>
      split at h
      · obtain ⟨rfl, rfl⟩ := Prod.mk.inj (Option.some.inj h)
        obtain ⟨opened, hopened, hopen⟩ := nodeAt?_of_last? houter
        obtain rfl := Option.some.inj (hfound.symm.trans hopened)
        simp only [isOpen, Bool.and_eq_true, bne_iff_ne] at hopen
        exact ⟨hfound, hopen.2⟩
      · next inner hinner =>
        obtain ⟨innerNode, hnode, heq⟩ := Option.map_eq_some_iff.mp h
        obtain ⟨rfl, rfl⟩ := Prod.mk.inj heq
        obtain ⟨other, hother, hmay⟩ := nodeAt?_of_last? hinner
        obtain rfl := Option.some.inj (hnode.symm.trans hother)
        simp only [mayGoOn, Bool.and_eq_true, beq_iff_eq] at hmay
        exact ⟨by rw [nodeAt?_append hfound, hnode], by simp [hmay.2]⟩

theorem unfinishedAll_set {trees : List Tree} {index : Nat} {tree : Tree} (changed : Tree)
    (h : trees[index]? = some tree) :
    unfinishedAll (trees.set index changed) + tree.unfinished =
      unfinishedAll trees + changed.unfinished := by
  induction trees generalizing index with
  | nil => simp at h
  | cons first rest ih =>
    cases index with
    | zero =>
      obtain rfl : first = tree := by simpa using h
      simp only [List.set_cons_zero, unfinishedAll]
      omega
    | succ index =>
      have := @ih index (by simpa using h)
      simp only [List.set_cons_succ, unfinishedAll]
      omega

theorem unfinished_markComplete {tree node : Tree} {path : Path}
    (h : tree.nodeAt? path = some node) (hnode : node.completion ≠ .complete) :
    (tree.modifyAt markComplete path).unfinished + 1 = tree.unfinished := by
  induction path generalizing tree with
  | nil =>
    obtain rfl : tree = node := by simpa [nodeAt?] using h
    obtain ⟨symbol, token, completion, closed, line, children⟩ := tree
    simp only at hnode
    simp only [modifyAt, markComplete, unfinished, if_true, if_neg hnode]
    omega
  | cons index path ih =>
    simp only [nodeAt?] at h
    split at h
    · next child hchild =>
      have hmarked := ih h
      have hset := unfinishedAll_set (child.modifyAt markComplete path) hchild
      obtain ⟨symbol, token, completion, closed, line, children⟩ := tree
      simp only at hchild hset
      simp only [modifyAt, hchild, unfinished]
      omega
    · simp at h

end Tree

/-- A tree to which tokens are being added, and the edits made so far, the latest first. -/
structure Growth where
  tree : Tree
  edits : List Edit := []

namespace Growth

def extend (growth : Growth) (path : Path) (node : Tree) (extension : Extension) : Growth :=
  ⟨growth.tree.modifyAt (Tree.extendBy extension) path,
    .grown path node.children.length node.completion :: growth.edits⟩

def markComplete (growth : Growth) (path : Path) (node : Tree) : Growth :=
  ⟨growth.tree.modifyAt Tree.markComplete path,
    .grown path node.children.length node.completion :: growth.edits⟩

def closeFinished (growth : Growth) (grammar : Grammar) : Growth :=
  ⟨grammar.closeFinished growth.tree, (grammar.closings growth.tree).reverse ++ growth.edits⟩

def reverted (growth : Growth) : Tree :=
  Edit.revertAll growth.edits growth.tree

end Growth

namespace Grammar

def refuse (token : Token) (tokens : List Token) (position : Nat) : ParseError :=
  .noMatch ((token :: tokens).getD position ((token :: tokens).getLast (by simp)))

/-- Adds some of the tokens to the tree, and says how many. A token has been refused at position
`furthest` before. -/
def grow (grammar : Grammar) (line : Nat) (token : Token) (tokens : List Token) (furthest : Nat)
    (growth : Growth) : Growth × Except ParseError Nat :=
  match _point : growth.tree.growthPoint? with
  | none => (growth, .error (refuse token tokens furthest))
  | some (path, node) =>
    let (found, further) := grammar.readOn line node.symbol node.children (token :: tokens)
    let furthest := max furthest further
    match found.filter fun extension => 0 < extension.consumed with
    | some extension => (growth.extend path node extension, .ok extension.consumed)
    | none =>
      if path = [] then (growth, .error (refuse token tokens furthest))
      else grammar.grow line token tokens furthest (growth.markComplete path node)
termination_by growth.tree.unfinished
decreasing_by
  have ⟨hnode, hcompletion⟩ := Tree.growthPoint?_spec _point
  exact Nat.le_of_eq (Tree.unfinished_markComplete hnode hcompletion)

/-- Adds all tokens to the tree. Each turn takes at least one of them. -/
def growAll (grammar : Grammar) (line : Nat) (growth : Growth) :
    List Token → Growth × Except ParseError Unit
  | [] => (growth, .ok ())
  | token :: tokens =>
    match grammar.grow line token tokens 0 growth with
    | (grown, .error error) => (grown, .error error)
    | (grown, .ok consumed) =>
      grammar.growAll line (grown.closeFinished grammar) (tokens.drop (consumed - 1))
termination_by tokens => tokens.length
decreasing_by simp only [List.length_drop, List.length_cons]; omega

end Grammar

end LineGrammar

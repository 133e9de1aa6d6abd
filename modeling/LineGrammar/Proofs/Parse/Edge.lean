import LineGrammar.Parse.Growth
import LineGrammar.Proofs.Tree.Paths
import Mathlib.Data.List.Basic

/-!
# Where a tree grows

The nodes of a tree that can grow lie on one way down from the root, with no token behind it
(`Tree.EdgeOpen`). The node at which the tree grows is the end of that way: above it are nodes that
are not closed, beside the way all is settled, and so are the children of the node itself. `OpenAt`
tells this way step by step, so that what a change of the node does to the tree is seen by induction
along the way.
-/

namespace LineGrammar.Tree

mutual

/-- No node of the tree can grow: none is open that is not below a closed one. -/
def Settled : Tree → Prop
  | ⟨_, _, completion, closed, _, children⟩ =>
    closed = true ∨ (completion = .complete ∧ SettledAll children)

def SettledAll : List Tree → Prop
  | [] => True
  | tree :: trees => tree.Settled ∧ SettledAll trees

end

mutual

/-- The nodes that can grow lie on one way down, with no token behind it. -/
def EdgeOpen : Tree → Prop
  | ⟨_, _, _, closed, _, children⟩ => closed = true ∨ EdgeOpenAll children

def EdgeOpenAll : List Tree → Prop
  | [] => True
  | tree :: trees =>
    (tree.Settled ∧ EdgeOpenAll trees) ∨
      (tree.EdgeOpen ∧ SettledAll trees ∧ tokensAll trees = [])

end

theorem settledAll_append {trees others : List Tree} :
    SettledAll (trees ++ others) ↔ SettledAll trees ∧ SettledAll others := by
  induction trees with
  | nil => simp [SettledAll]
  | cons tree trees ih => simp only [List.cons_append, SettledAll, ih, and_assoc]

theorem settledAll_iff {trees : List Tree} : SettledAll trees ↔ ∀ tree ∈ trees, tree.Settled := by
  induction trees with
  | nil => simp [SettledAll]
  | cons tree trees ih => simp only [SettledAll, ih, List.forall_mem_cons]

theorem edgeOpenAll_append {trees others : List Tree} (htrees : SettledAll trees)
    (hothers : EdgeOpenAll others) : EdgeOpenAll (trees ++ others) := by
  induction trees with
  | nil => exact hothers
  | cons tree trees ih => exact .inl ⟨htrees.1, ih htrees.2⟩

theorem edgeOpenAll_of_settledAll {trees : List Tree} (h : SettledAll trees) :
    EdgeOpenAll trees := by
  rw [← List.append_nil trees]
  exact edgeOpenAll_append h trivial

theorem edgeOpen_of_settled {tree : Tree} (h : tree.Settled) : tree.EdgeOpen := by
  obtain ⟨symbol, token, completion, closed, line, children⟩ := tree
  rcases h with hclosed | ⟨-, hchildren⟩
  · exact .inl hclosed
  · exact .inr (edgeOpenAll_of_settledAll hchildren)

theorem settled_leaf (symbol : String) (token : Option Token) (line : Nat) :
    (leaf symbol token line).Settled :=
  .inl rfl

/-! ## The last open node -/

mutual

theorem settled_of_last?_eq_none :
    ∀ {tree : Tree}, tree.last? isOpen = none → tree.Settled
  | ⟨symbol, token, completion, closed, line, children⟩, h => by
    unfold last? at h
    cases closed with
    | true => exact .inl rfl
    | false =>
      simp only [Bool.false_eq_true, if_false] at h
      split at h
      · simp at h
      · next hchildren =>
        refine .inr ⟨?_, settledAll_of_lastOfAll?_eq_none hchildren⟩
        by_contra hcompletion
        simp [isOpen, hcompletion] at h

theorem settledAll_of_lastOfAll?_eq_none {index : Nat} :
    ∀ {trees : List Tree}, lastOfAll? isOpen index trees = none → SettledAll trees
  | [], _ => trivial
  | tree :: trees, h => by
    unfold lastOfAll? at h
    split at h
    · simp at h
    · next hrest =>
      exact ⟨settled_of_last?_eq_none (by simpa using h), settledAll_of_lastOfAll?_eq_none hrest⟩

end

mutual

theorem last?_eq_none_of_settled {wanted : Tree → Bool}
    (hwanted : ∀ tree, wanted tree = true → tree.closed = false ∧ tree.completion ≠ .complete) :
    ∀ {tree : Tree}, tree.Settled → tree.last? wanted = none
  | ⟨symbol, token, completion, closed, line, children⟩, h => by
    have hnot : wanted ⟨symbol, token, completion, closed, line, children⟩ = false := by
      by_contra hyes
      obtain ⟨hopen, hcompletion⟩ := hwanted _ (by simpa using hyes)
      rcases h with hclosed | ⟨hcomplete, -⟩
      · exact absurd (hclosed.symm.trans hopen) (by simp)
      · exact hcompletion hcomplete
    unfold last?
    rw [hnot]
    rcases h with rfl | ⟨-, hchildren⟩
    · rfl
    · rw [lastOfAll?_eq_none_of_settledAll hwanted hchildren]
      cases closed <;> rfl

theorem lastOfAll?_eq_none_of_settledAll {wanted : Tree → Bool} {index : Nat}
    (hwanted : ∀ tree, wanted tree = true → tree.closed = false ∧ tree.completion ≠ .complete) :
    ∀ {trees : List Tree}, SettledAll trees → lastOfAll? wanted index trees = none
  | [], _ => rfl
  | tree :: trees, h => by
    unfold lastOfAll?
    rw [lastOfAll?_eq_none_of_settledAll hwanted h.2, last?_eq_none_of_settled hwanted h.1]
    rfl

end

theorem closed_and_completion_of_isOpen (tree : Tree) (h : tree.isOpen = true) :
    tree.closed = false ∧ tree.completion ≠ .complete := by
  simpa [isOpen] using h

theorem closed_and_completion_of_mayGoOn (tree : Tree) (h : tree.mayGoOn = true) :
    tree.closed = false ∧ tree.completion ≠ .complete := by
  obtain ⟨hclosed, hcompletion⟩ : tree.closed = false ∧ tree.completion = .maybe := by
    simpa [mayGoOn] using h
  exact ⟨hclosed, by rw [hcompletion]; decide⟩

/-! ## The way to the node that grows -/

/-- The tree can grow at the end of a path, at this node only. -/
inductive OpenAt : Tree → Path → Tree → Prop where
  | here {node : Tree} (hopen : node.isOpen = true) (hchildren : SettledAll node.children) :
      OpenAt node [] node
  | under {symbol : String} {token : Option Token} {completion : Completion} {line : Nat}
      {before after : List Tree} {child node : Tree} {path : Path} (hbefore : SettledAll before)
      (hchild : OpenAt child path node) (hafter : SettledAll after) (htokens : tokensAll after = []) :
      OpenAt ⟨symbol, token, completion, false, line, before ++ child :: after⟩
        (before.length :: path) node

mutual

theorem openAt_of_last? :
    ∀ {tree : Tree} {path : Path}, tree.last? isOpen = some path → tree.EdgeOpen →
      ∃ node, OpenAt tree path node
  | ⟨symbol, token, completion, closed, line, children⟩, path, hlast, hedge => by
    unfold last? at hlast
    cases closed with
    | true => simp [isOpen] at hlast
    | false =>
      simp only [Bool.false_eq_true, if_false] at hlast
      split at hlast
      · next found hfound =>
        obtain rfl := Option.some.inj hlast
        obtain ⟨before, child, after, rest, rfl, rfl, hbefore, ⟨node, hchild⟩, hafter, htokens⟩ :=
          openAt_of_lastOfAll? hfound (hedge.resolve_left (by simp))
        rw [Nat.zero_add]
        exact ⟨node, .under hbefore hchild hafter htokens⟩
      · next hchildren =>
        split at hlast
        · next hopen =>
          obtain rfl := Option.some.inj hlast
          exact ⟨_, .here hopen (settledAll_of_lastOfAll?_eq_none hchildren)⟩
        · simp at hlast

theorem openAt_of_lastOfAll? {index : Nat} :
    ∀ {trees : List Tree} {path : Path}, lastOfAll? isOpen index trees = some path →
      EdgeOpenAll trees →
      ∃ before child after rest, trees = before ++ child :: after ∧
        path = (index + before.length) :: rest ∧ SettledAll before ∧
        (∃ node, OpenAt child rest node) ∧ SettledAll after ∧ tokensAll after = []
  | [], path, hlast, _ => by simp [lastOfAll?] at hlast
  | tree :: trees, path, hlast, hedge => by
    unfold lastOfAll? at hlast
    split at hlast
    · next found hfound =>
      obtain rfl := Option.some.inj hlast
      -- an open node further right leaves this one settled
      obtain ⟨hsettled, hedges⟩ : tree.Settled ∧ EdgeOpenAll trees := by
        rcases hedge with h | ⟨-, hsettled, -⟩
        · exact h
        · rw [lastOfAll?_eq_none_of_settledAll closed_and_completion_of_isOpen hsettled] at hfound
          simp at hfound
      obtain ⟨before, child, after, rest, rfl, rfl, hbefore, hchild, hafter⟩ :=
        openAt_of_lastOfAll? hfound hedges
      refine ⟨tree :: before, child, after, rest, rfl, ?_, ⟨hsettled, hbefore⟩, hchild, hafter⟩
      rw [List.length_cons, Nat.add_right_comm, Nat.add_assoc]
    · next hrest =>
      obtain ⟨rest, hfound, rfl⟩ := Option.map_eq_some_iff.mp hlast
      have hafter := settledAll_of_lastOfAll?_eq_none hrest
      obtain ⟨hedge, htokens⟩ : tree.EdgeOpen ∧ tokensAll trees = [] := by
        rcases hedge with ⟨hsettled, -⟩ | ⟨h, -, htokens⟩
        · rw [last?_eq_none_of_settled closed_and_completion_of_isOpen hsettled] at hfound
          simp at hfound
        · exact ⟨h, htokens⟩
      exact ⟨[], tree, trees, rest, rfl, rfl, trivial, openAt_of_last? hfound hedge, hafter, htokens⟩

end

namespace OpenAt

variable {tree node : Tree} {path : Path}

theorem nodeAt? (h : OpenAt tree path node) : tree.nodeAt? path = some node := by
  induction h with
  | here => rfl
  | under _ _ _ _ ih =>
    rw [Tree.nodeAt?]
    simpa using ih

theorem isOpen (h : OpenAt tree path node) : node.isOpen = true := by
  induction h with
  | here hopen _ => exact hopen
  | under _ _ _ _ ih => exact ih

theorem settledAll_children (h : OpenAt tree path node) : SettledAll node.children := by
  induction h with
  | here _ hchildren => exact hchildren
  | under _ _ _ _ ih => exact ih

theorem not_settled (h : OpenAt tree path node) : ¬tree.Settled := by
  induction h with
  | @here node hopen _ =>
    obtain ⟨symbol, token, completion, closed, line, children⟩ := node
    obtain ⟨hclosed, hcompletion⟩ := closed_and_completion_of_isOpen _ hopen
    rintro (h | ⟨h, -⟩)
    · exact absurd (h.symm.trans hclosed) (by simp)
    · exact hcompletion h
  | under _ _ _ _ ih =>
    rintro (h | ⟨-, h⟩)
    · simp at h
    · exact ih (settledAll_append.mp h).2.1

theorem modifyAt_under (change : Tree → Tree) (symbol : String) (token : Option Token)
    (completion : Completion) (line : Nat) (before after : List Tree) (child : Tree) (path : Path) :
    (⟨symbol, token, completion, false, line, before ++ child :: after⟩ : Tree).modifyAt change
        (before.length :: path) =
      ⟨symbol, token, completion, false, line, before ++ child.modifyAt change path :: after⟩ := by
  rw [modifyAt_cons, modify_length_append]

end OpenAt

theorem openAt_of_growthPoint? {tree node : Tree} {path : Path}
    (h : tree.growthPoint? = some (path, node)) (hedge : tree.EdgeOpen) :
    OpenAt tree path node := by
  unfold growthPoint? at h
  split at h
  · simp at h
  · next outer hlast =>
    obtain ⟨other, hopen⟩ := openAt_of_last? hlast hedge
    rw [hopen.nodeAt?] at h
    dsimp only at h
    -- below the last open node all is settled, so that the node itself is found again or none
    have hinner : other.last? mayGoOn = none ∨ other.last? mayGoOn = some [] := by
      have hsettled := hopen.settledAll_children
      obtain ⟨symbol, token, completion, closed, line, children⟩ := other
      unfold last?
      rw [lastOfAll?_eq_none_of_settledAll closed_and_completion_of_mayGoOn hsettled]
      cases closed with
      | true => exact ite_eq_or_eq _ _ _ |>.symm
      | false => exact ite_eq_or_eq _ _ _ |>.symm
    rcases hinner with hinner | hinner
    · rw [hinner] at h
      obtain ⟨rfl, rfl⟩ := Prod.mk.inj (Option.some.inj h)
      exact hopen
    · rw [hinner] at h
      obtain ⟨rfl, rfl⟩ : outer = path ∧ other = node := by simpa [Tree.nodeAt?] using h
      exact hopen

theorem settled_of_growthPoint?_eq_none {tree : Tree} (h : tree.growthPoint? = none)
    (hedge : tree.EdgeOpen) : tree.Settled := by
  unfold growthPoint? at h
  split at h
  · next hlast => exact settled_of_last?_eq_none hlast
  · next outer hlast =>
    obtain ⟨node, hopen⟩ := openAt_of_last? hlast hedge
    rw [hopen.nodeAt?] at h
    dsimp only at h
    split at h
    · simp at h
    · next inner hinner =>
      obtain ⟨other, hother, -⟩ := nodeAt?_of_last? hinner
      simp [hother] at h

end LineGrammar.Tree

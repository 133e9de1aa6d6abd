import LineGrammar.Proofs.Parse.Closing

/-!
# What the closing pass closes

The pass goes down a tree as far as nodes are open and closes each finished node that it meets, with
all that is below it as far as nodes are open. On any tree, whatever flags it has and whatever sets
the grammar keeps, it closes exactly the nodes of such stretches (`Grammar.closes_iff_spans`): no
flag that it sets hides anything from it, since the nodes that it goes on with are not below those
that it closes. For the same reason there is nothing left for a second pass.
-/

namespace LineGrammar

namespace Tree

/-- From the node down to the one at the path none is closed, the first and the last included. -/
inductive Reaches : Tree → Path → Prop where
  | stay {tree : Tree} (hopen : tree.closed = false) : Reaches tree []
  | down {tree child : Tree} {index : Nat} {path : Path} (hopen : tree.closed = false)
      (hchild : tree.children[index]? = some child) (hrest : Reaches child path) :
      Reaches tree (index :: path)

theorem Reaches.closed_eq_false {tree node : Tree} {path : Path} (h : tree.Reaches path)
    (hnode : tree.nodeAt? path = some node) : node.closed = false := by
  induction h with
  | stay hopen =>
    obtain rfl := Option.some.inj hnode
    exact hopen
  | down _ hchild _ ih =>
    rw [nodeAt?, hchild] at hnode
    exact ih hnode

end Tree

namespace Grammar

open LineGrammar.Tree

/-- A node of a non-terminal is finished if the node behind it may begin with what may follow the
non-terminal. -/
structure Finished (grammar : Grammar) (node next : Tree) : Prop where
  nonTerminal : grammar.isNonTerminal node.symbol = true
  exists_follow : ∃ follow terminal, grammar.followSet? node.symbol = some follow ∧
    terminal ∈ follow ∧ terminal ∈ grammar.firstOfSymbol next.symbol

/-- The node at the path is below the tree and finished, and neither it nor a node above it is
closed, apart perhaps from the tree itself. -/
inductive FinishedAt (grammar : Grammar) : Tree → Path → Prop where
  | child {tree node next : Tree} {index : Nat} (hnode : tree.children[index]? = some node)
      (hopen : node.closed = false) (hnext : tree.children[index + 1]? = some next)
      (hfinished : grammar.Finished node next) : FinishedAt grammar tree [index]
  | inside {tree node : Tree} {index : Nat} {path : Path}
      (hnode : tree.children[index]? = some node) (hopen : node.closed = false)
      (hinside : FinishedAt grammar node path) : FinishedAt grammar tree (index :: path)

/-- The node at the path is reached from a finished one without crossing a closed node. -/
def Spans (grammar : Grammar) (tree : Tree) (path : Path) : Prop :=
  ∃ above below finished, path = above ++ below ∧ grammar.FinishedAt tree above ∧
    tree.nodeAt? above = some finished ∧ finished.Reaches below

variable {grammar : Grammar} {tree node after : Tree} {index : Nat} {path : Path}

/-! ## Stretches of open nodes -/

theorem finishes_eq_true {next : Option Tree} :
    grammar.finishes node next = true ↔ ∃ behind, next = some behind ∧ grammar.Finished node behind := by
  unfold finishes
  split
  · next _ _ _ follow behind hnonTerminal hfollow =>
    rw [SymbolSet.meets_iff]
    constructor
    · rintro ⟨terminal, hterminal, hfirst⟩
      exact ⟨behind, rfl, hnonTerminal, follow, terminal, hfollow, hterminal, hfirst⟩
    · rintro ⟨_, ⟨⟩, -, other, terminal, hother, hterminal, hfirst⟩
      obtain rfl := Option.some.inj (hfollow.symm.trans hother)
      exact ⟨terminal, hterminal, hfirst⟩
  · next hnone =>
    refine ⟨fun h => absurd h (by simp), ?_⟩
    rintro ⟨behind, rfl, hnonTerminal, follow, -, hfollow, -⟩
    exact absurd rfl (hnone follow behind hnonTerminal hfollow)

theorem FinishedAt.reaches {above below : Path} (h : grammar.FinishedAt tree above)
    (hopen : tree.closed = false) {finished : Tree} (hfinished : tree.nodeAt? above = some finished)
    (hbelow : finished.Reaches below) : tree.Reaches (above ++ below) := by
  induction h with
  | @child tree node _ index hnode _ _ _ =>
    rw [nodeAt?, hnode] at hfinished
    obtain rfl : node = finished := by simpa [nodeAt?] using hfinished
    exact .down hopen hnode hbelow
  | inside hnode hnodeOpen _ ih =>
    rw [nodeAt?, hnode] at hfinished
    exact .down hopen hnode (ih hnodeOpen hfinished)

theorem not_spans_nil : ¬grammar.Spans tree [] := by
  rintro ⟨above, below, -, heq, hfinished, -⟩
  obtain ⟨rfl, -⟩ := List.append_eq_nil_iff.mp heq.symm
  cases hfinished

/-- A stretch below a tree begins at a child that is finished, or lies below a child. -/
theorem spans_cons_iff : grammar.Spans tree (index :: path) ↔
    ∃ node, tree.children[index]? = some node ∧ node.closed = false ∧
      ((∃ next, tree.children[index + 1]? = some next ∧ grammar.Finished node next) ∧
          node.Reaches path ∨ grammar.Spans node path) := by
  constructor
  · rintro ⟨above, below, found, heq, hfinished, hfound, hreaches⟩
    cases hfinished with
    | @child _ node next _ hnode hopen hnext hfinished =>
      obtain ⟨rfl, rfl⟩ := List.cons.inj heq
      rw [nodeAt?, hnode] at hfound
      obtain rfl : node = found := by simpa [nodeAt?] using hfound
      exact ⟨node, hnode, hopen, .inl ⟨⟨next, hnext, hfinished⟩, hreaches⟩⟩
    | inside hnode hopen hinside =>
      obtain ⟨rfl, rfl⟩ := List.cons.inj heq
      rw [nodeAt?, hnode] at hfound
      exact ⟨_, hnode, hopen, .inr ⟨_, below, found, rfl, hinside, hfound, hreaches⟩⟩
  · rintro ⟨node, hnode, hopen, ⟨⟨next, hnext, hfinished⟩, hreaches⟩ |
      ⟨above, below, found, rfl, hinside, hfound, hreaches⟩⟩
    · refine ⟨[index], path, node, rfl, .child hnode hopen hnext hfinished, ?_, hreaches⟩
      rw [nodeAt?, hnode]
      rfl
    · refine ⟨index :: above, below, found, rfl, .inside hnode hopen hinside, ?_, hreaches⟩
      rw [nodeAt?, hnode]
      exact hfound

theorem Spans.reaches (h : grammar.Spans tree path) (hopen : tree.closed = false) :
    tree.Reaches path := by
  obtain ⟨above, below, found, rfl, hfinished, hfound, hreaches⟩ := h
  exact hfinished.reaches hopen hfound hreaches

theorem Spans.closed_eq_false (h : grammar.Spans tree path)
    (hnode : tree.nodeAt? path = some node) : node.closed = false := by
  obtain ⟨above, below, found, rfl, -, hfound, hreaches⟩ := h
  rw [nodeAt?_append hfound] at hnode
  exact hreaches.closed_eq_false hnode

/-! ## The pass -/

theorem exists_nodeAt?_closeFinished (hnode : tree.nodeAt? path = some node) :
    ∃ after, (grammar.closeFinished tree).nodeAt? path = some after := by
  have hsame : ((grammar.closeFinished tree).nodeAt? path).map unclosed = some node.unclosed := by
    rw [← nodewise_unclosed.nodeAt?, unclosed_closeFinished, nodewise_unclosed.nodeAt?, hnode]
    rfl
  obtain ⟨after, hafter, -⟩ := Option.map_eq_some_iff.mp hsame
  exact ⟨after, hafter⟩

theorem closed_of_close_iff (hnode : tree.nodeAt? path = some node)
    (hafter : tree.close.nodeAt? path = some after) :
    after.closed = true ↔ node.closed = true ∨ tree.Reaches path := by
  induction path generalizing tree with
  | nil =>
    obtain rfl : tree = node := by simpa [nodeAt?] using hnode
    obtain rfl : tree.close = after := by simpa [nodeAt?] using hafter
    cases hclosed : tree.closed with
    | true => simp [closed_close]
    | false => simpa [closed_close] using Reaches.stay hclosed
  | cons index path ih =>
    cases hclosed : tree.closed with
    | true =>
      rw [close_of_closed hclosed, hnode] at hafter
      obtain rfl := Option.some.inj hafter
      refine ⟨.inl, fun h => h.resolve_right fun hreaches => ?_⟩
      cases hreaches with
      | down hopen _ _ => exact absurd (hclosed.symm.trans hopen) (by simp)
    | false =>
      rw [close_of_not_closed hclosed, nodeAt?, List.getElem?_map] at hafter
      rw [nodeAt?] at hnode
      cases hchild : tree.children[index]? with
      | none => simp [hchild] at hnode
      | some child =>
        rw [hchild] at hnode hafter
        rw [ih hnode hafter]
        refine or_congr_right ⟨.down hclosed hchild, fun hreaches => ?_⟩
        cases hreaches with
        | down _ hfound hrest =>
          obtain rfl := Option.some.inj (hchild.symm.trans hfound)
          exact hrest

theorem getElem?_closeFinishedAll (nodes : List Tree) (index : Nat) :
    (grammar.closeFinishedAll nodes)[index]? = nodes[index]?.map fun node =>
      if node.closed then node
      else if grammar.finishes node nodes[index + 1]? then node.close
      else grammar.closeFinished node := by
  induction nodes generalizing index with
  | nil => simp [closeFinishedAll]
  | cons first rest ih =>
    rw [closeFinishedAll]
    cases index with
    | zero => simp [List.head?_eq_getElem?]
    | succ index => simpa using ih index

/-- The pass closes what is spanned, and nothing else. -/
theorem closed_of_closeFinished_iff (hnode : tree.nodeAt? path = some node)
    (hafter : (grammar.closeFinished tree).nodeAt? path = some after) :
    after.closed = true ↔ node.closed = true ∨ grammar.Spans tree path := by
  induction path generalizing tree with
  | nil =>
    rw [closeFinished_eq] at hafter
    obtain rfl : tree = node := by simpa [nodeAt?] using hnode
    obtain rfl : { tree with children := grammar.closeFinishedAll tree.children } = after := by
      simpa [nodeAt?] using hafter
    simp [not_spans_nil]
  | cons index path ih =>
    rw [closeFinished_eq, nodeAt?, getElem?_closeFinishedAll] at hafter
    rw [nodeAt?] at hnode
    cases hchild : tree.children[index]? with
    | none => simp [hchild] at hnode
    | some child =>
      rw [hchild] at hnode hafter
      dsimp only [Option.map_some] at hnode hafter
      rw [spans_cons_iff]
      split at hafter
      · next hclosed =>
        -- the pass stops at a closed child, and nothing below it is spanned
        obtain rfl := Option.some.inj (hnode.symm.trans hafter)
        refine ⟨.inl, fun h => h.resolve_right ?_⟩
        rintro ⟨found, hfound, hopen, -⟩
        obtain rfl := Option.some.inj (hchild.symm.trans hfound)
        exact absurd (hclosed.symm.trans hopen) (by simp)
      · next hclosed =>
        have hopen : child.closed = false := by simpa using hclosed
        split at hafter
        · next hfinishes =>
          rw [closed_of_close_iff hnode hafter]
          refine or_congr_right ⟨fun hreaches => ?_, ?_⟩
          · exact ⟨child, hchild, hopen, .inl ⟨finishes_eq_true.mp hfinishes, hreaches⟩⟩
          · rintro ⟨found, hfound, -, ⟨-, hreaches⟩ | hspans⟩
            · obtain rfl := Option.some.inj (hchild.symm.trans hfound)
              exact hreaches
            · obtain rfl := Option.some.inj (hchild.symm.trans hfound)
              exact hspans.reaches hopen
        · next hfinishes =>
          rw [ih hnode hafter]
          refine or_congr_right ⟨fun hspans => ⟨child, hchild, hopen, .inr hspans⟩, ?_⟩
          rintro ⟨found, hfound, -, ⟨hfinished, -⟩ | hspans⟩
          · obtain rfl := Option.some.inj (hchild.symm.trans hfound)
            exact absurd (finishes_eq_true.mpr hfinished) hfinishes
          · obtain rfl := Option.some.inj (hchild.symm.trans hfound)
            exact hspans

theorem finishes_congr {other : Tree} {next behind : Option Tree}
    (hsymbol : other.symbol = node.symbol)
    (hnext : behind.map (·.symbol) = next.map (·.symbol)) :
    grammar.finishes other behind = grammar.finishes node next := by
  unfold finishes
  rw [hsymbol]
  cases next with
  | none =>
    obtain rfl := Option.map_eq_none_iff.mp hnext
    rfl
  | some next =>
    obtain ⟨found, rfl, hfound⟩ := Option.map_eq_some_iff.mp hnext
    rcases grammar.isNonTerminal node.symbol with - | -
    · rfl
    rcases grammar.followSet? node.symbol with - | follow
    · rfl
    · exact congrArg (fun symbol => follow.meets (grammar.firstOfSymbol symbol)) hfound

mutual

theorem closeFinished_closeFinished (grammar : Grammar) : ∀ tree : Tree,
    grammar.closeFinished (grammar.closeFinished tree) = grammar.closeFinished tree
  | ⟨symbol, token, completion, closed, line, children⟩ => by
    rw [closeFinished, closeFinished, closeFinishedAll_closeFinishedAll]

theorem closeFinishedAll_closeFinishedAll (grammar : Grammar) : ∀ trees : List Tree,
    grammar.closeFinishedAll (grammar.closeFinishedAll trees) = grammar.closeFinishedAll trees
  | [] => rfl
  | node :: rest => by
    have hnext : (grammar.closeFinishedAll rest).head?.map (·.symbol) =
        rest.head?.map (·.symbol) := by
      rw [← List.head?_map, ← List.head?_map, map_symbol_closeFinishedAll]
    rw [closeFinishedAll, closeFinishedAll, closeFinishedAll_closeFinishedAll grammar rest]
    congr 1
    by_cases hclosed : node.closed = true
    · rw [if_pos hclosed, if_pos hclosed]
    · rw [if_neg hclosed]
      by_cases hfinishes : grammar.finishes node rest.head? = true
      · rw [if_pos hfinishes, if_pos (closed_close node)]
      · -- the node stays open, and is not finished by what has become of the node behind it
        have hagain : grammar.finishes (grammar.closeFinished node)
            (grammar.closeFinishedAll rest).head? = grammar.finishes node rest.head? :=
          finishes_congr (by rw [closeFinished_eq]) hnext
        have hopen : (grammar.closeFinished node).closed = node.closed := by rw [closeFinished_eq]
        rw [if_neg hfinishes, hopen, if_neg hclosed, hagain, if_neg hfinishes,
          closeFinished_closeFinished grammar node]

end

/-- **The pass closes exactly what is spanned.** It changes nothing but closed flags and reopens no
node, it closes the nodes that are reached from a finished one without crossing a closed node, and a
second pass changes nothing. -/
theorem closes_iff_spans (grammar : Grammar) (tree : Tree) :
    (grammar.closeFinished tree).unclosed = tree.unclosed ∧
      (∀ path node after, tree.nodeAt? path = some node →
        (grammar.closeFinished tree).nodeAt? path = some after →
          node.closed = true → after.closed = true) ∧
      (∀ path node, grammar.Closes tree path node ↔
        tree.nodeAt? path = some node ∧ grammar.Spans tree path) ∧
      grammar.closeFinished (grammar.closeFinished tree) = grammar.closeFinished tree := by
  refine ⟨unclosed_closeFinished grammar tree, fun path node after hnode hafter hclosed => ?_,
    fun path node => ?_, closeFinished_closeFinished grammar tree⟩
  · exact (closed_of_closeFinished_iff hnode hafter).mpr (.inl hclosed)
  · constructor
    · rintro ⟨hnode, hopen, after, hafter, hclosed⟩
      refine ⟨hnode, ((closed_of_closeFinished_iff hnode hafter).mp hclosed).resolve_left ?_⟩
      simp [hopen]
    · rintro ⟨hnode, hspans⟩
      obtain ⟨after, hafter⟩ := exists_nodeAt?_closeFinished hnode
      exact ⟨hnode, hspans.closed_eq_false hnode, after, hafter,
        (closed_of_closeFinished_iff hnode hafter).mpr (.inr hspans)⟩

def letterBehind : Grammar where
  nonTerminals := ["A"]
  terminals := ["b"]
  followSets := [("A", .singleton "b")]

/-- The first child is finished; one of its children is open, and one is closed above an open one. -/
def mixedFlags : Tree :=
  { Tree.branch "S" 1 with
    children := [
      { Tree.branch "A" 1 with
        children := [.branch "A" 1,
          { Tree.branch "A" 1 with closed := true, children := [.branch "A" 1] }] },
      .leaf "b" none 1] }

theorem closes_iff_spans_mixedFlags :
    (∃ node after, mixedFlags.nodeAt? [0, 1] = some node ∧
        (letterBehind.closeFinished mixedFlags).nodeAt? [0, 1] = some after ∧
          node.closed = true ∧ after.closed = true) ∧
      letterBehind.Closes mixedFlags [0, 0] (.branch "A" 1) ∧
      ¬letterBehind.Closes mixedFlags [0, 1, 0] (.branch "A" 1) := by
  obtain ⟨-, hkept, hcloses, -⟩ := closes_iff_spans letterBehind mixedFlags
  have hfinished : letterBehind.FinishedAt mixedFlags [0] :=
    .child rfl rfl rfl ⟨by decide, .singleton "b", "b", rfl, by simp, by decide⟩
  refine ⟨⟨_, _, rfl, rfl, rfl, hkept [0, 1] _ _ rfl rfl rfl⟩, (hcloses _ _).mpr ⟨rfl, ?_⟩, ?_⟩
  · exact ⟨[0], [0], _, rfl, hfinished, rfl, .down rfl rfl (.stay rfl)⟩
  · rintro ⟨-, -, after, hafter, hclosed⟩
    obtain rfl : Tree.branch "A" 1 = after := Option.some.inj hafter
    cases hclosed

end Grammar

end LineGrammar

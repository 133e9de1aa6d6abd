import LineGrammar.Proofs.Parse.Expectation
import LineGrammar.Proofs.Tree.Unclosed

/-!
# Closing cuts off no growth

The pass that closes finished nodes closes only what is complete, with all that is below it
(`Frozen.whole_of_closes`): behind a node that can still grow there are only nodes of the empty
text, and these finish nothing. So closed flags hide nothing that could grow, and a turn does the
same on a tree with all flags taken away (`grow_unclosed`).

A parse without the pass therefore takes and refuses the same lines with the same errors, and its
tree is the same up to closed flags (`Parse.run_unclosed`).
-/

namespace LineGrammar

namespace Grammar

open LineGrammar.Tree

variable {grammar : Grammar} {line : Nat} {tokens : List Token}

/-! ## One turn -/

theorem Reads.closedWhole {symbols : List String} {stretch : Stretch}
    (h : Reads grammar line tokens symbols stretch) : ∀ node ∈ stretch.nodes, node.ClosedWhole := by
  induction h with
  | done => simp [Stretch.empty]
  | empty _ ih => exact List.forall_mem_cons.mpr ⟨closedWhole_leaf _ _ _, ih⟩
  | short => simp [Stretch.empty]
  | terminal _ _ _ _ ih => exact List.forall_mem_cons.mpr ⟨closedWhole_leaf _ _ _, ih⟩
  | inside _ _ _ _ _ ih => exact List.forall_mem_singleton.mpr (closedWhole_of_open rfl ih)
  | symbol _ _ _ _ _ _ ihInner ihRest =>
    exact List.forall_mem_cons.mpr ⟨closedWhole_of_open rfl ihInner, ihRest⟩

theorem closedWhole_extendBy {node : Tree} {extension : Extension} (h : node.ClosedWhole)
    (hcompletion : node.completion ≠ .complete)
    (hread : (grammar.readOn line node.symbol node.children tokens).1 = some extension) :
    (extendBy extension node).ClosedWhole := by
  obtain ⟨_, -, stretch, -, -, hreads, hnodes, -, -⟩ := extends_of_readOn hread
  have hclosed := h.closed_eq_false_of_ne hcompletion
  refine closedWhole_of_open hclosed fun child hchild => ?_
  rcases List.mem_append.mp hchild with hold | hnew
  · exact h.child child hold
  · exact hreads.closedWhole child (hnodes ▸ hnew)

theorem closedWhole_markComplete {node : Tree} (h : node.ClosedWhole)
    (hcompletion : node.completion ≠ .complete) : node.markComplete.ClosedWhole := by
  have hclosed := h.closed_eq_false_of_ne hcompletion
  exact closedWhole_of_open hclosed h.child

theorem closedWhole_grow (grammar : Grammar) (line : Nat) (token : Token) (tokens : List Token)
    (furthest : Nat) (growth : Growth) (h : growth.tree.ClosedWhole) :
    (grammar.grow line token tokens furthest growth).1.tree.ClosedWhole := by
  fun_induction grow grammar line token tokens furthest growth with
  | case1 => exact h
  | case2 furthest growth path node hpoint found further hread extension hfilter =>
    obtain ⟨hnode, hcompletion⟩ := growthPoint?_spec hpoint
    obtain ⟨hfound, -⟩ := Option.filter_eq_some_iff.mp hfilter
    exact h.modifyAt hnode hcompletion
      (closedWhole_extendBy (h.of_nodeAt? hnode) hcompletion (by rw [hread, hfound]))
  | case3 => exact h
  | case4 furthest growth path node hpoint found further hread _ hfilter hpath ih =>
    obtain ⟨hnode, hcompletion⟩ := growthPoint?_spec hpoint
    exact ih (h.modifyAt hnode hcompletion
      (closedWhole_markComplete (h.of_nodeAt? hnode) hcompletion))

theorem readOn_unclosed (grammar : Grammar) (line : Nat) (node : Tree) (tokens : List Token) :
    grammar.readOn line node.unclosed.symbol node.unclosed.children tokens =
      grammar.readOn line node.symbol node.children tokens := by
  rw [unclosed_eq]
  unfold readOn
  rw [nodewise_unclosed.map_symbol]

theorem grow_of_growthPoint? {token : Token} {furthest : Nat} {growth : Growth} {path : Path}
    {node : Tree} (h : growth.tree.growthPoint? = some (path, node)) :
    grammar.grow line token tokens furthest growth =
      match grammar.readOn line node.symbol node.children (token :: tokens) with
      | (found, further) =>
        match found.filter fun extension => 0 < extension.consumed with
        | some extension => (growth.extend path node extension, .ok extension.consumed)
        | none =>
          if path = [] then (growth, .error (refuse token tokens (max furthest further)))
          else grammar.grow line token tokens (max furthest further)
            (growth.markComplete path node) := by
  rw [grow]
  split
  · next hnone => simp [h] at hnone
  · next otherPath otherNode hfound =>
    obtain ⟨rfl, rfl⟩ : path = otherPath ∧ node = otherNode := by
      simpa [h] using hfound
    rfl

theorem grow_unclosed (grammar : Grammar) (line : Nat) (token : Token) (tokens : List Token)
    (furthest : Nat) (growth : Growth) (h : growth.tree.ClosedWhole) (edits : List Edit) :
    (grammar.grow line token tokens furthest ⟨growth.tree.unclosed, edits⟩).2 =
        (grammar.grow line token tokens furthest growth).2 ∧
      (grammar.grow line token tokens furthest ⟨growth.tree.unclosed, edits⟩).1.tree.unclosed =
        (grammar.grow line token tokens furthest growth).1.tree.unclosed := by
  fun_induction grow grammar line token tokens furthest growth generalizing edits with
  | case1 furthest growth hpoint =>
    have hother := growthPoint?_unclosed h
    rw [hpoint] at hother
    rw [grow]
    split
    · exact ⟨rfl, unclosed_unclosed _⟩
    · next path node hfound => simp [hother] at hfound
  | case2 furthest growth path node hpoint found further hread extension hfilter =>
    have hother := growthPoint?_unclosed h
    rw [hpoint] at hother
    rw [grow_of_growthPoint? hother, readOn_unclosed, hread]
    dsimp only
    rw [hfilter]
    refine ⟨rfl, ?_⟩
    have hextend := unclosed_modifyAt (unclosed_extendBy extension)
    show (growth.tree.unclosed.modifyAt (extendBy extension) path).unclosed =
      (growth.tree.modifyAt (extendBy extension) path).unclosed
    rw [hextend, hextend, unclosed_unclosed]
  | case3 furthest growth node found further hread _ hfilter hpoint =>
    have hother := growthPoint?_unclosed h
    rw [hpoint] at hother
    rw [grow_of_growthPoint? hother, readOn_unclosed, hread]
    dsimp only
    rw [hfilter]
    exact ⟨rfl, unclosed_unclosed _⟩
  | case4 furthest growth path node hpoint found further hread _ hfilter hpath ih =>
    obtain ⟨hnode, hcompletion⟩ := growthPoint?_spec hpoint
    have hmarked := h.modifyAt hnode hcompletion
      (closedWhole_markComplete (h.of_nodeAt? hnode) hcompletion)
    have hother := growthPoint?_unclosed h
    rw [hpoint] at hother
    rw [grow_of_growthPoint? hother, readOn_unclosed, hread]
    dsimp only
    rw [hfilter]
    dsimp only
    rw [if_neg hpath, Growth.markComplete, ← unclosed_modifyAt unclosed_markComplete]
    exact ih hmarked _

theorem grow_alike (grammar : Grammar) (line : Nat) (token : Token) (tokens : List Token)
    (furthest : Nat) {growth other : Growth} (h : growth.tree.ClosedWhole)
    (hother : other.tree.ClosedWhole) (halike : other.tree.unclosed = growth.tree.unclosed) :
    (grammar.grow line token tokens furthest other).2 =
        (grammar.grow line token tokens furthest growth).2 ∧
      (grammar.grow line token tokens furthest other).1.tree.unclosed =
        (grammar.grow line token tokens furthest growth).1.tree.unclosed := by
  obtain ⟨hresult, htree⟩ := grow_unclosed grammar line token tokens furthest growth h []
  obtain ⟨hresult', htree'⟩ := grow_unclosed grammar line token tokens furthest other hother []
  rw [halike] at hresult' htree'
  exact ⟨hresult'.symm.trans hresult, htree'.symm.trans htree⟩

/-! ## The pass -/

/-- The pass closes this node of the tree, which is at the path. -/
def Closes (grammar : Grammar) (tree : Tree) (path : Path) (node : Tree) : Prop :=
  tree.nodeAt? path = some node ∧ node.closed = false ∧
    ∃ after, (grammar.closeFinished tree).nodeAt? path = some after ∧ after.closed = true

mutual

theorem unclosed_closeFinished (grammar : Grammar) :
    ∀ tree : Tree, (grammar.closeFinished tree).unclosed = tree.unclosed
  | ⟨symbol, token, completion, closed, line, children⟩ => by
    rw [closeFinished, unclosed, unclosed, unclosedAll_closeFinishedAll]

theorem unclosedAll_closeFinishedAll (grammar : Grammar) :
    ∀ trees : List Tree, unclosedAll (grammar.closeFinishedAll trees) = unclosedAll trees
  | [] => rfl
  | node :: rest => by
    rw [closeFinishedAll, unclosedAll, unclosedAll, unclosedAll_closeFinishedAll grammar rest]
    congr 1
    split
    · rfl
    · split
      · exact unclosed_close node
      · exact unclosed_closeFinished grammar node

end

theorem exists_of_closeFinishedAll {nodes : List Tree} {index : Nat} {changed : Tree}
    (h : (grammar.closeFinishedAll nodes)[index]? = some changed) :
    ∃ before node rest, nodes = before ++ node :: rest ∧ nodes[index]? = some node ∧
      changed = if node.closed then node
        else if grammar.finishes node rest.head? then node.close
        else grammar.closeFinished node := by
  induction nodes generalizing index with
  | nil => simp [closeFinishedAll] at h
  | cons first nodes ih =>
    rw [closeFinishedAll] at h
    cases index with
    | zero => exact ⟨[], first, nodes, rfl, rfl, (Option.some.inj h).symm⟩
    | succ index =>
      obtain ⟨before, node, rest, rfl, hnode, hchanged⟩ := ih (by simpa using h)
      exact ⟨first :: before, node, rest, rfl, hnode, hchanged⟩

theorem Frozen.whole_of_finishes (h : grammar.Frozen) (hempty : grammar.isTerminal emptyText = true)
    {before rest : List Tree} {node : Tree} (hblank : BlankBehind (before ++ node :: rest))
    (hnode : node.ClosedWhole) (hfinishes : grammar.finishes node rest.head? = true) :
    node.Whole := by
  have hbehind := (blankBehind_of_append hblank).1
  exact hnode.whole_of_settled (h.settled_of_finishes hempty hbehind hfinishes)

theorem Frozen.whole_of_closes (h : grammar.Frozen) (hempty : grammar.isTerminal emptyText = true)
    {tree node : Tree} {path : Path} (htree : tree.Everywhere grammar.Proper)
    (hwhole : tree.ClosedWhole) (hcloses : grammar.Closes tree path node) : node.Whole := by
  induction path generalizing tree with
  | nil =>
    obtain ⟨hnode, hopen, after, hafter, hclosed⟩ := hcloses
    obtain rfl : tree = node := by simpa [nodeAt?] using hnode
    obtain rfl : grammar.closeFinished tree = after := by simpa [nodeAt?] using hafter
    rw [closeFinished_eq] at hclosed
    exact absurd (hclosed.symm.trans hopen) (by simp)
  | cons index path ih =>
    obtain ⟨hnode, hopen, after, hafter, hclosed⟩ := hcloses
    rw [nodeAt?] at hnode
    rw [closeFinished_eq, nodeAt?] at hafter
    split at hafter
    · next changed hchanged =>
      obtain ⟨before, child, rest, heq, hchild, rfl⟩ := exists_of_closeFinishedAll hchanged
      rw [hchild] at hnode
      have hmem := List.mem_of_getElem? hchild
      split at hafter
      · -- below a closed node nothing is changed
        obtain rfl := Option.some.inj (hnode.symm.trans hafter)
        exact absurd (hclosed.symm.trans hopen) (by simp)
      · split at hafter
        · next hfinishes =>
          have hfinished := h.whole_of_finishes hempty (heq ▸ htree.here.blankBehind)
            (hwhole.child child hmem) hfinishes
          exact hfinished.of_nodeAt? hnode
        · exact ih (htree.child child hmem) (hwhole.child child hmem)
            ⟨hnode, hopen, after, hafter, hclosed⟩
    · simp at hafter

/-- After the pass closed flags hide nothing. -/
theorem Frozen.closedWhole_closeFinished (h : grammar.Frozen)
    (hempty : grammar.isTerminal emptyText = true) {tree : Tree}
    (htree : tree.Everywhere grammar.Proper) (hwhole : tree.ClosedWhole) :
    (grammar.closeFinished tree).ClosedWhole := by
  induction htree with
  | @intro tree hproper hchildren ih =>
    rw [closeFinished_eq]
    refine .intro (fun hclosed => ?_) fun changed hchanged => ?_
    · -- the node itself is left as it is
      rw [← closeFinished_eq]
      exact (hwhole.here hclosed).of_alike (unclosed_closeFinished grammar tree)
    · obtain ⟨index, hindex⟩ := List.getElem?_of_mem hchanged
      obtain ⟨before, child, rest, heq, hchild, rfl⟩ := exists_of_closeFinishedAll hindex
      have hmem := List.mem_of_getElem? hchild
      have hbelow := hwhole.child child hmem
      split
      · exact hbelow
      · split
        · next hfinishes =>
          have hfinished := h.whole_of_finishes hempty (heq ▸ hproper.blankBehind) hbelow hfinishes
          exact (hfinished.of_alike (unclosed_close child)).closedWhole
        · exact ih child hmem hbelow

/-! ## Lines -/

/-- What is known of a tree to which tokens are added. -/
structure Growable (grammar : Grammar) (tree : Tree) : Prop where
  edgeOpen : tree.EdgeOpen
  proper : Fresh tree ∨ tree.Everywhere grammar.Proper
  closedWhole : tree.ClosedWhole

/-- After a turn and the pass behind it the tree can take the next tokens. -/
theorem Frozen.growable_turn (h : grammar.Frozen) (hempty : grammar.isTerminal emptyText = true)
    {token : Token} {growth grown : Growth} {consumed : Nat} (htree : grammar.Growable growth.tree)
    (hgrow : grammar.grow line token tokens 0 growth = (grown, .ok consumed)) :
    grown.tree.Everywhere grammar.Proper ∧ grown.tree.ClosedWhole ∧
      grammar.Growable (grown.closeFinished grammar).tree := by
  have hok : (grammar.grow line token tokens 0 growth).2 = .ok consumed := by rw [hgrow]
  have hedge := (tokens_grow grammar line token tokens 0 growth htree.edgeOpen hok).1
  have hproper := proper_grow token tokens 0 growth htree.edgeOpen htree.proper hok
  have hwhole := closedWhole_grow grammar line token tokens 0 growth htree.closedWhole
  rw [hgrow] at hedge hproper hwhole
  exact ⟨hproper, hwhole, edgeOpen_closeFinished grammar hedge,
    .inr (proper_closeFinished hproper), h.closedWhole_closeFinished hempty hproper hwhole⟩

/-- The pass goes over this tree while tokens are added. -/
inductive PassAt (grammar : Grammar) (line : Nat) : Growth → List Token → Tree → Prop where
  | here {growth grown : Growth} {token : Token} {tokens : List Token} {consumed : Nat}
      (hgrow : grammar.grow line token tokens 0 growth = (grown, .ok consumed)) :
      PassAt grammar line growth (token :: tokens) grown.tree
  | later {growth grown : Growth} {token : Token} {tokens : List Token} {consumed : Nat}
      {tree : Tree} (hgrow : grammar.grow line token tokens 0 growth = (grown, .ok consumed))
      (hrest : PassAt grammar line (grown.closeFinished grammar) (tokens.drop (consumed - 1)) tree) :
      PassAt grammar line growth (token :: tokens) tree

theorem Frozen.whole_of_passAt (h : grammar.Frozen) (hempty : grammar.isTerminal emptyText = true)
    {growth : Growth} {tree node : Tree} {path : Path} (htree : grammar.Growable growth.tree)
    (hpass : grammar.PassAt line growth tokens tree) (hcloses : grammar.Closes tree path node) :
    node.Whole := by
  induction hpass with
  | here hgrow =>
    obtain ⟨hproper, hwhole, -⟩ := h.growable_turn hempty htree hgrow
    exact h.whole_of_closes hempty hproper hwhole hcloses
  | later hgrow _ ih => exact ih (h.growable_turn hempty htree hgrow).2.2 hcloses

/-- Adds all tokens to the tree, with some pass over it after each turn. -/
def growAllWith (grammar : Grammar) (pass : Growth → Growth) (line : Nat) (growth : Growth) :
    List Token → Growth × Except ParseError Unit
  | [] => (growth, .ok ())
  | token :: tokens =>
    match grammar.grow line token tokens 0 growth with
    | (grown, .error error) => (grown, .error error)
    | (grown, .ok consumed) =>
      grammar.growAllWith pass line (pass grown) (tokens.drop (consumed - 1))
termination_by tokens => tokens.length
decreasing_by simp only [List.length_drop, List.length_cons]; omega

theorem growAllWith_closeFinished (grammar : Grammar) (line : Nat) (growth : Growth)
    (tokens : List Token) :
    grammar.growAllWith (·.closeFinished grammar) line growth tokens =
      grammar.growAll line growth tokens := by
  fun_induction growAll grammar line growth tokens with
  | case1 => rw [growAllWith]
  | case2 growth token tokens grown error hgrow => rw [growAllWith, hgrow]
  | case3 growth token tokens grown consumed hgrow ih =>
    rw [growAllWith, hgrow]
    exact ih

theorem reverted_growAllWith (grammar : Grammar) {pass : Growth → Growth}
    (hpass : ∀ growth, (pass growth).reverted = growth.reverted) (line : Nat) (growth : Growth)
    (tokens : List Token) :
    (grammar.growAllWith pass line growth tokens).1.reverted = growth.reverted := by
  fun_induction growAllWith grammar pass line growth tokens with
  | case1 => rfl
  | case2 growth token tokens grown error hgrow =>
    have hturn := reverted_grow grammar line token tokens 0 growth
    rwa [hgrow] at hturn
  | case3 growth token tokens grown consumed hgrow ih =>
    have hturn := reverted_grow grammar line token tokens 0 growth
    rw [hgrow] at hturn
    rw [ih, hpass, hturn]

theorem Frozen.growAllWith_alike (h : grammar.Frozen)
    (hempty : grammar.isTerminal emptyText = true) (line : Nat) (growth other : Growth)
    (tokens : List Token) (htree : grammar.Growable growth.tree) (hother : other.tree.ClosedWhole)
    (halike : other.tree.unclosed = growth.tree.unclosed) :
    (grammar.growAllWith id line other tokens).2 = (grammar.growAll line growth tokens).2 ∧
      (grammar.growAllWith id line other tokens).1.tree.unclosed =
        (grammar.growAll line growth tokens).1.tree.unclosed ∧
      (grammar.growAllWith id line other tokens).1.tree.ClosedWhole ∧
      (grammar.growAll line growth tokens).1.tree.ClosedWhole := by
  fun_induction growAll grammar line growth tokens generalizing other with
  | case1 growth =>
    rw [growAllWith]
    exact ⟨rfl, halike, hother, htree.closedWhole⟩
  | case2 growth token tokens grown error hgrow =>
    have hwhole := closedWhole_grow grammar line token tokens 0 growth htree.closedWhole
    have hwholeOther := closedWhole_grow grammar line token tokens 0 other hother
    obtain ⟨hresult, hsame⟩ :=
      grow_alike grammar line token tokens 0 htree.closedWhole hother halike
    rw [hgrow] at hresult hsame hwhole
    rw [growAllWith]
    split
    · next grownOther failure hgrowOther =>
      rw [hgrowOther] at hresult hsame hwholeOther
      obtain rfl := Except.error.inj hresult
      exact ⟨rfl, hsame, hwholeOther, hwhole⟩
    · next grownOther consumed hgrowOther => simp [hgrowOther] at hresult
  | case3 growth token tokens grown consumed hgrow ih =>
    have hwholeOther := closedWhole_grow grammar line token tokens 0 other hother
    obtain ⟨hresult, hsame⟩ :=
      grow_alike grammar line token tokens 0 htree.closedWhole hother halike
    rw [hgrow] at hresult hsame
    rw [growAllWith]
    split
    · next grownOther failure hgrowOther => simp [hgrowOther] at hresult
    · next grownOther taken hgrowOther =>
      rw [hgrowOther] at hresult hsame hwholeOther
      obtain rfl := Except.ok.inj hresult
      refine ih _ (h.growable_turn hempty htree hgrow).2.2 hwholeOther ?_
      rw [id, hsame]
      exact (unclosed_closeFinished grammar grown.tree).symm

end Grammar

namespace Parse

open LineGrammar.Grammar

variable {grammar : Grammar}

/-- Feeds a line of tokens, with some pass over the tree after each turn. -/
def feedWith (pass : Growth → Growth) (parse : Parse) (grammar : Grammar) (tokens : List Token) :
    Parse × Except ParseError Bool :=
  if tokens = [] then (parse, .ok (!parse.isComplete))
  else
    match grammar.start? with
    | none => (parse, .error .noStartSymbol)
    | some start =>
      let line := parse.line + 1
      match grammar.growAllWith pass line { tree := parse.root.getD (.branch start line) } tokens with
      | (growth, .error error) =>
        (⟨parse.root.map fun _ => growth.reverted, line⟩, .error error)
      | (growth, .ok ()) =>
        let grown : Parse := ⟨some growth.tree, line⟩
        (grown, .ok (!grown.isComplete))

theorem feedWith_closeFinished (parse : Parse) (grammar : Grammar) (tokens : List Token) :
    parse.feedWith (·.closeFinished grammar) grammar tokens = parse.feed grammar tokens := by
  unfold feedWith feed
  by_cases hnone : tokens = []
  · rw [if_pos hnone, if_pos hnone]
  · rw [if_neg hnone, if_neg hnone]
    cases grammar.start? with
    | none => rfl
    | some start =>
      dsimp only
      generalize hgrown : grammar.growAllWith (·.closeFinished grammar) (parse.line + 1)
        { tree := parse.root.getD (.branch start (parse.line + 1)) } tokens = grown
      rw [growAllWith_closeFinished] at hgrown
      subst hgrown
      rfl

/-- Feeds line after line, and keeps the answers. -/
def run (feed : Parse → List Token → Parse × Except ParseError Bool) (parse : Parse) :
    List (List Token) → Parse × List (Except ParseError Bool)
  | [] => (parse, [])
  | line :: lines =>
    let (fed, answer) := feed parse line
    let (after, answers) := run feed fed lines
    (after, answer :: answers)

/-- What is known of a parse between two lines. -/
structure Kept (grammar : Grammar) (parse : Parse) : Prop where
  proper : parse.Proper grammar
  closedWhole : ∀ root ∈ parse.root, root.ClosedWhole

/-- Two parses are the same up to closed flags. -/
structure Alike (parse other : Parse) : Prop where
  line : other.line = parse.line
  root : other.root.map Tree.unclosed = parse.root.map Tree.unclosed

theorem Alike.isComplete {parse other : Parse} (h : Alike parse other) :
    other.isComplete = parse.isComplete := by
  have hcomplete : ∀ parse : Parse, parse.isComplete =
      (parse.root.map Tree.unclosed).elim false fun root => root.completion == .complete := by
    intro parse
    unfold Parse.isComplete
    cases parse.root with
    | none => rfl
    | some root => simp [Tree.unclosed_eq]
  rw [hcomplete, hcomplete, h.root]

theorem closedWhole_getD {root : Option Tree} (h : ∀ tree ∈ root, tree.ClosedWhole)
    (start : String) (line : Nat) : (root.getD (.branch start line)).ClosedWhole := by
  cases root with
  | none => exact Tree.closedWhole_of_open rfl (by simp [Tree.branch])
  | some tree => exact h tree rfl

theorem unclosed_getD (root : Option Tree) (start : Tree) :
    (root.getD start).unclosed = (root.map Tree.unclosed).getD start.unclosed := by
  cases root <;> rfl

theorem Kept.growable {parse : Parse} (h : parse.Kept grammar) {start : String}
    (hstart : grammar.start? = some start) (line : Nat) :
    grammar.Growable (parse.root.getD (.branch start line)) := by
  obtain ⟨hedge, -, hproper⟩ := h.proper.getD hstart line
  exact ⟨hedge, hproper, closedWhole_getD h.closedWhole start line⟩

theorem map_reverted_growAllWith (parse : Parse) (grammar : Grammar) (start : Tree) (line : Nat)
    (tokens : List Token) :
    (parse.root.map fun _ =>
      (grammar.growAllWith id line { tree := parse.root.getD start } tokens).1.reverted) =
        parse.root := by
  have hid : ∀ growth : Growth, (id growth).reverted = growth.reverted := fun _ => rfl
  rw [reverted_growAllWith grammar hid]
  cases parse.root with
  | none => rfl
  | some root => rfl

/-- A line is answered alike without the pass. -/
theorem Alike.feed {parse other : Parse} (h : grammar.Frozen)
    (hempty : grammar.isTerminal emptyText = true) (hkept : parse.Kept grammar)
    (hother : ∀ root ∈ other.root, root.ClosedWhole) (halike : Alike parse other)
    (tokens : List Token) :
    (other.feedWith id grammar tokens).2 = (parse.feed grammar tokens).2 ∧
      Alike (parse.feed grammar tokens).1 (other.feedWith id grammar tokens).1 ∧
      (parse.feed grammar tokens).1.Kept grammar ∧
      ∀ root ∈ (other.feedWith id grammar tokens).1.root, root.ClosedWhole := by
  have hproper := proper_feed hkept.proper tokens
  unfold feedWith
  unfold Parse.feed at hproper ⊢
  by_cases hnone : tokens = []
  · rw [if_pos hnone, if_pos hnone]
    exact ⟨by rw [halike.isComplete], halike, hkept, hother⟩
  · rw [if_neg hnone] at hproper
    rw [if_neg hnone, if_neg hnone]
    cases hstart : grammar.start? with
    | none => exact ⟨rfl, halike, hkept, hother⟩
    | some start =>
      rw [hstart] at hproper
      dsimp only at hproper ⊢
      rw [halike.line]
      have hsame : (other.root.getD (.branch start (parse.line + 1))).unclosed =
          (parse.root.getD (.branch start (parse.line + 1))).unclosed := by
        rw [unclosed_getD, unclosed_getD, halike.root]
      obtain ⟨hresult, htree, hwholeOther, hwhole⟩ :=
        h.growAllWith_alike hempty (parse.line + 1)
          { tree := parse.root.getD (.branch start (parse.line + 1)) }
          { tree := other.root.getD (.branch start (parse.line + 1)) } tokens
          (hkept.growable hstart _) (closedWhole_getD hother start _) hsame
      have hroot := parse.map_reverted_growAll grammar (.branch start (parse.line + 1))
        (parse.line + 1) tokens
      have hrootOther := other.map_reverted_growAllWith grammar (.branch start (parse.line + 1))
        (parse.line + 1) tokens
      generalize grammar.growAll (parse.line + 1) _ tokens = grown at *
      generalize grammar.growAllWith id (parse.line + 1) _ tokens = grownOther at *
      obtain ⟨growth, result⟩ := grown
      obtain ⟨growthOther, resultOther⟩ := grownOther
      dsimp only at hresult htree hwholeOther hwhole hroot hrootOther
      obtain rfl : resultOther = result := hresult
      cases resultOther with
      | error error =>
        dsimp only at hproper ⊢
        rw [hroot] at hproper
        rw [hroot, hrootOther]
        exact ⟨rfl, ⟨rfl, halike.root⟩, ⟨hproper, hkept.closedWhole⟩, hother⟩
      | ok =>
        have hgrown : Alike ⟨some growth.tree, parse.line + 1⟩
            ⟨some growthOther.tree, parse.line + 1⟩ := ⟨rfl, congrArg some htree⟩
        dsimp only at hproper ⊢
        refine ⟨by rw [hgrown.isComplete], hgrown, ⟨hproper, ?_⟩, ?_⟩
        · rintro root ⟨⟩
          exact hwhole
        · rintro root ⟨⟩
          exact hwholeOther

/-- The pass goes over this tree while a line is fed. -/
def PassAt (parse : Parse) (grammar : Grammar) (tokens : List Token) (tree : Tree) : Prop :=
  ∃ start, grammar.start? = some start ∧
    grammar.PassAt (parse.line + 1) { tree := parse.root.getD (.branch start (parse.line + 1)) }
      tokens tree

theorem run_alike {parse other : Parse} (h : grammar.Frozen)
    (hempty : grammar.isTerminal emptyText = true) (hkept : parse.Kept grammar)
    (hother : ∀ root ∈ other.root, root.ClosedWhole) (halike : Alike parse other)
    (lines : List (List Token)) :
    (run (feedWith id · grammar) other lines).2 = (run (feed · grammar) parse lines).2 ∧
      Alike (run (feed · grammar) parse lines).1 (run (feedWith id · grammar) other lines).1 ∧
      (run (feed · grammar) parse lines).1.Kept grammar := by
  induction lines generalizing parse other with
  | nil => exact ⟨rfl, halike, hkept⟩
  | cons line lines ih =>
    obtain ⟨hanswer, hfed, hkeptFed, hwhole⟩ := halike.feed h hempty hkept hother line
    obtain ⟨hanswers, hafter, hkeptAfter⟩ := ih hkeptFed hwhole hfed
    refine ⟨?_, hafter, hkeptAfter⟩
    rw [run, run]
    exact congrArg₂ List.cons hanswer hanswers

/-- **Closing cuts off no growth.** However many lines have been fed to a fresh parse, the nodes
that the pass closes while a line is fed are complete, and so is all below them; and without the pass
the lines are answered alike, and the tree is the same up to closed flags. -/
theorem run_unclosed (h : grammar.Frozen) (hempty : grammar.isTerminal emptyText = true)
    (row : Nat) (lines : List (List Token)) :
    (∀ line tree, (run (feed · grammar) ⟨none, row⟩ lines).1.PassAt grammar line tree →
      ∀ path node, grammar.Closes tree path node → node.Whole) ∧
    (run (feedWith id · grammar) ⟨none, row⟩ lines).2 =
      (run (feed · grammar) ⟨none, row⟩ lines).2 ∧
    Alike (run (feed · grammar) ⟨none, row⟩ lines).1
      (run (feedWith id · grammar) ⟨none, row⟩ lines).1 := by
  have hkept : (⟨none, row⟩ : Parse).Kept grammar :=
    ⟨proper_fresh grammar row, fun root hroot => by simp at hroot⟩
  obtain ⟨hanswers, halike, hafter⟩ :=
    run_alike h hempty hkept hkept.closedWhole ⟨rfl, rfl⟩ lines
  refine ⟨?_, hanswers, halike⟩
  rintro line tree ⟨start, hstart, hpass⟩ path node hcloses
  exact h.whole_of_passAt hempty (hafter.growable hstart _) hpass hcloses

/-- Lists of pairs, over any number of lines. -/
def pairLists : Grammar :=
  Grammar.withSets {
    nonTerminals := ["list", "pair"]
    terminals := ["a", "b", "$", "#"]
    rules := [("list", [["pair", "list", "$"], ["pair", "$"]]), ("pair", [["a", "b"]])] }

theorem pairLists_frozen : pairLists.Frozen :=
  frozen_of_feedText "list pair # a b # list -> pair list # list -> pair # pair -> a b # ##" rfl rfl

/-- The second line is refused after the first pair has been closed, and the third one ends it. -/
def pairLines : List (List Token) :=
  [wordTokens ["a"], wordTokens ["b", "a", "b", "b"], wordTokens ["b", "a", "b"]]

theorem run_unclosed_pairLists : pairLists.Frozen ∧ pairLists.isTerminal emptyText = true ∧
    (run (feed · pairLists) {} pairLines).2 =
      [.ok true, .error (.noMatch ⟨.word "b", ⟨1, 0⟩⟩), .ok true] ∧
    ((run (feed · pairLists) {} pairLines).1.root.bind (·.nodeAt? [0])).map (·.closed) = some true ∧
    (run (feedWith id · pairLists) {} pairLines).2 = (run (feed · pairLists) {} pairLines).2 ∧
    Alike (run (feed · pairLists) {} pairLines).1 (run (feedWith id · pairLists) {} pairLines).1 := by
  have hempty : pairLists.isTerminal emptyText = true := rfl
  have halike := run_unclosed pairLists_frozen hempty 0 pairLines
  exact ⟨pairLists_frozen, hempty, by cbv, by cbv, halike.2⟩

end Parse

end LineGrammar

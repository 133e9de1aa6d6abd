import LineGrammar.Proofs.Parse.Closing

/-!
# Partial derivation trees

The tree that a parse keeps between two lines is the beginning of a derivation from the start symbol
(`Parse.partialTree_feedAll`). What its nodes can stand for is known (`Grammar.Shaped`). A node with
nothing below it can only be one for a token or for the empty text (`Tree.Filled`): an alternative
that is read on has symbols left, and where there is a token the first of these makes a node
(`Grammar.keptByReading_fills`).
-/

namespace LineGrammar

namespace Tree

/-- A node with nothing below it is one for a token or for the empty text. -/
def Filled (tree : Tree) : Prop :=
  tree.children = [] → tree.token.isSome = true ∨ tree.symbol = emptyText

variable {tree node : Tree}

theorem filled_of_ne_nil (h : tree.children ≠ []) : tree.Filled :=
  fun hnone => absurd hnone h

theorem filled_leaf_token (symbol : String) (token : Token) (line : Nat) :
    (leaf symbol (some token) line).Everywhere Filled :=
  .intro (fun _ => .inl rfl) (by simp [leaf])

theorem filled_leaf_emptyText (token : Option Token) (line : Nat) :
    (leaf emptyText token line).Everywhere Filled :=
  .intro (fun _ => .inr rfl) (by simp [leaf])

theorem filled_unclosed (tree : Tree) : tree.unclosed.Filled ↔ tree.Filled := by
  rw [unclosed_eq]
  simp [Filled]

theorem filled_modifyAt {change : Tree → Tree} {path : Path} (h : tree.Everywhere Filled)
    (hnode : tree.nodeAt? path = some node) (hchange : (change node).Everywhere Filled) :
    (tree.modifyAt change path).Everywhere Filled := by
  induction path generalizing tree with
  | nil =>
    obtain rfl : tree = node := by simpa [nodeAt?] using hnode
    rwa [modifyAt_nil]
  | cons index path ih =>
    rw [nodeAt?] at hnode
    cases hchild : tree.children[index]? with
    | none => simp [hchild] at hnode
    | some child =>
      rw [hchild] at hnode
      have hmem := List.mem_of_getElem? hchild
      have hbelow := forall_mem_modify (fun child => child.modifyAt change path) h.child hchild
        (ih (h.child child hmem) hnode)
      rw [modifyAt_cons]
      refine .intro (filled_of_ne_nil fun hnone => ?_) hbelow
      rw [List.modify_eq_nil_iff] at hnone
      simp [hnone] at hmem

end Tree

namespace Grammar

open LineGrammar.Tree

variable {grammar : Grammar} {line : Nat}

/-! ## Reading -/

/-- The nodes are filled, and if there are tokens there is one of them. -/
def Fills (tokens : List Token) (nodes : List Tree) : Prop :=
  (∀ node ∈ nodes, node.Everywhere Filled) ∧ (tokens ≠ [] → nodes ≠ [])

theorem filled_entered {tokens : List Token} {nodes : List Tree} (h : Fills tokens nodes)
    (hne : tokens ≠ []) (symbol : String) (completion : Completion) (line : Nat) :
    Tree.Everywhere Filled ⟨symbol, none, completion, false, line, nodes⟩ :=
  .intro (filled_of_ne_nil (h.2 hne)) h.1

/-- What is read is filled. Symbols make a node where there is a token to read. -/
theorem keptByReading_fills (grammar : Grammar) (line : Nat) :
    KeptByReading grammar line fun tokens symbols stretch =>
      (∀ node ∈ stretch.nodes, node.Everywhere Filled) ∧
        (symbols ≠ [] → tokens ≠ [] → stretch.nodes ≠ []) := by
  constructor
  case done => exact fun tokens => ⟨by simp [Stretch.empty], fun hne => absurd rfl hne⟩
  case empty =>
    intro tokens symbols rest hrest
    exact ⟨List.forall_mem_cons.mpr ⟨filled_leaf_emptyText none line, hrest.1⟩,
      fun _ _ => List.cons_ne_nil _ _⟩
  case short =>
    exact fun _ => ⟨by simp [Stretch.empty], fun _ hne => absurd rfl hne⟩
  case terminal =>
    intro symbol symbols token later rest _ _ _ hrest
    exact ⟨List.forall_mem_cons.mpr ⟨filled_leaf_token symbol token line, hrest.1⟩,
      fun _ _ => List.cons_ne_nil _ _⟩
  case inside =>
    intro symbol symbols token later alternative inner _ _ _ hne hinner _
    have hnode := filled_entered ⟨hinner.1, hinner.2 hne⟩ (List.cons_ne_nil token later) symbol
      .incomplete line
    exact ⟨List.forall_mem_singleton.mpr hnode, fun _ _ => List.cons_ne_nil _ _⟩
  case symbol =>
    intro symbol symbols token later alternative inner rest completion _ _ _ hne hinner _ hrest
    have hnode := filled_entered ⟨hinner.1, hinner.2 hne⟩ (List.cons_ne_nil token later) symbol
      completion line
    exact ⟨List.forall_mem_cons.mpr ⟨hnode, hrest.1⟩, fun _ _ => List.cons_ne_nil _ _⟩

theorem fills_readOn {symbol : String} {existing : List Tree} {tokens : List Token}
    {extension : Extension}
    (h : (grammar.readOn line symbol existing tokens).1 = some extension) :
    Fills tokens extension.nodes := by
  obtain ⟨alternative, -, stretch, -, hlonger, ⟨hnodes, hne⟩, heq, -⟩ :=
    exists_of_choose ((keptByReading_fills grammar line).of_read.2 _ _ _ _ _) h
  have hleft : alternative.drop (existing.map (·.symbol)).length ≠ [] := by
    rw [ne_eq, List.drop_eq_nil_iff]
    omega
  rw [heq]
  exact ⟨hnodes, hne hleft⟩

/-! ## Growth -/

theorem filled_grow (token : Token) (tokens : List Token) (furthest : Nat) (growth : Growth)
    (htree : growth.tree.children = [] ∨ growth.tree.Everywhere Filled) {consumed : Nat}
    (h : (grammar.grow line token tokens furthest growth).2 = .ok consumed) :
    (grammar.grow line token tokens furthest growth).1.tree.Everywhere Filled := by
  fun_induction grow grammar line token tokens furthest growth with
  | case1 => simp at h
  | case2 furthest growth path node hpoint found further hread extension hfilter =>
    obtain ⟨hnode, -⟩ := growthPoint?_spec hpoint
    obtain ⟨hfound, -⟩ := Option.filter_eq_some_iff.mp hfilter
    obtain ⟨hnodes, hne⟩ : Fills (token :: tokens) extension.nodes :=
      fills_readOn (by rw [hread, hfound])
    have hextend : (∀ child ∈ node.children, child.Everywhere Filled) →
        (extendBy extension node).Everywhere Filled := fun hchildren =>
      .intro (filled_of_ne_nil (List.append_ne_nil_of_right_ne_nil _ (hne (List.cons_ne_nil _ _))))
        (List.forall_mem_append.mpr ⟨hchildren, hnodes⟩)
    rcases htree with hnone | htree
    · obtain ⟨rfl, rfl⟩ := eq_of_nodeAt?_of_nil hnone hnode
      rw [Growth.extend, modifyAt_nil]
      exact hextend (by simp [hnone])
    · exact filled_modifyAt htree hnode (hextend (htree.of_nodeAt? hnode).child)
  | case3 => simp at h
  | case4 furthest growth path node hpoint found further hread _ hfilter hpath ih =>
    obtain ⟨hnode, -⟩ := growthPoint?_spec hpoint
    have htree := htree.resolve_left fun hnone => hpath (eq_of_nodeAt?_of_nil hnone hnode).1
    have hmarked : node.markComplete.Everywhere Filled :=
      .intro (htree.of_nodeAt? hnode).here (htree.of_nodeAt? hnode).child
    exact ih (.inr (filled_modifyAt htree hnode hmarked)) h

theorem filled_closeFinished {tree : Tree} (h : tree.Everywhere Filled) :
    (grammar.closeFinished tree).Everywhere Filled := by
  have hbefore := h.unclosed fun tree => (filled_unclosed tree).mpr
  rw [← unclosed_closeFinished grammar] at hbefore
  exact .of_unclosed (fun tree => (filled_unclosed tree).mp) hbefore

theorem filled_growAll (line : Nat) (growth : Growth) (tokens : List Token)
    (htree : (growth.tree.children = [] ∧ tokens ≠ []) ∨ growth.tree.Everywhere Filled)
    (h : (grammar.growAll line growth tokens).2 = .ok ()) :
    (grammar.growAll line growth tokens).1.tree.Everywhere Filled := by
  fun_induction growAll grammar line growth tokens with
  | case1 => exact htree.resolve_left fun hnone => hnone.2 rfl
  | case2 => simp at h
  | case3 growth token tokens grown consumed hgrow ih =>
    have hok : (grammar.grow line token tokens 0 growth).2 = .ok consumed := by rw [hgrow]
    have hturn := filled_grow token tokens 0 growth (htree.imp_left And.left) hok
    rw [hgrow] at hturn
    exact ih (.inr (filled_closeFinished hturn)) h

/-! ## Trees -/

/-- What a node of a partial derivation tree stands for: a token that belongs to its symbol, the
empty text, or the beginning of an alternative of its symbol. -/
inductive PartialNode (grammar : Grammar) (node : Tree) : Prop where
  | token (token : Token) (hchildren : node.children = []) (htoken : node.token = some token)
      (hbelongs : token.lexeme.belongsTo grammar.isTerminal node.symbol = true)
  | blank (hchildren : node.children = []) (htoken : node.token = none)
      (hsymbol : node.symbol = emptyText)
  | branch (alternative : Alternative) (hchildren : node.children ≠ []) (htoken : node.token = none)
      (halternative : alternative ∈ grammar.alternatives node.symbol)
      (hbeginning : node.children.map (·.symbol) <+: alternative)

/-- The beginning of a derivation from the start symbol, in which closed nodes have only closed ones
below them. -/
structure PartialTree (grammar : Grammar) (root : Tree) : Prop where
  start : grammar.start? = some root.symbol
  node : ∀ path node, root.nodeAt? path = some node → grammar.PartialNode node
  closed : ∀ path node, root.nodeAt? path = some node → node.closed = true →
    ∀ below descendant, node.nodeAt? below = some descendant → descendant.closed = true

theorem Shaped.partialNode {node : Tree} (h : grammar.Shaped node) (hfilled : node.Filled) :
    grammar.PartialNode node := by
  cases h with
  | @token terminal token line hspells =>
    obtain ⟨-, -, haccepts⟩ := hspells
    rw [accepts, Bool.and_eq_true] at haccepts
    exact .token token rfl rfl haccepts.2
  | blank line => exact .blank rfl rfl rfl
  | key unread htoken halternative _ =>
    by_cases hchildren : node.children = []
    · have hsymbol := (hfilled hchildren).resolve_left (by simp [htoken])
      exact .blank hchildren htoken hsymbol
    · exact .branch _ hchildren htoken halternative (List.prefix_append _ _)

theorem closed_of_nodeAt? {tree node : Tree} {path : Path} (h : tree.Everywhere grammar.Proper)
    (hclosed : tree.closed = true) (hnode : tree.nodeAt? path = some node) :
    node.closed = true := by
  induction path generalizing tree with
  | nil =>
    obtain rfl : tree = node := by simpa [nodeAt?] using hnode
    exact hclosed
  | cons index path ih =>
    rw [nodeAt?] at hnode
    split at hnode
    · next child hchild =>
      have hmem := List.mem_of_getElem? hchild
      exact ih (h.child child hmem) (h.here.closed hclosed child hmem) hnode
    · simp at hnode

end Grammar

namespace Parse

open LineGrammar.Grammar

variable {grammar : Grammar} {parse : Parse}

/-- All nodes of the tree, if there is one, are filled. -/
def Filled (parse : Parse) : Prop :=
  ∀ root ∈ parse.root, root.Everywhere Tree.Filled

theorem filled_feed (h : parse.Filled) (line : List Token) :
    (parse.feed grammar line).1.Filled := by
  rcases parse.feed_cases grammar line with ⟨hroot, -⟩ | ⟨start, growth, hne, -, hgrow, hroot⟩
  · rwa [Filled, hroot]
  · have htree : ((parse.root.getD (.branch start (parse.line + 1))).children = [] ∧ line ≠ []) ∨
        (parse.root.getD (.branch start (parse.line + 1))).Everywhere Tree.Filled := by
      cases hbefore : parse.root with
      | none => exact .inl ⟨rfl, hne⟩
      | some root => exact .inr (h root hbefore)
    have hfilled := filled_growAll (parse.line + 1)
      { tree := parse.root.getD (.branch start (parse.line + 1)) } line htree (by rw [hgrow])
    rw [hgrow] at hfilled
    rw [Filled, hroot]
    rintro root ⟨⟩
    exact hfilled

/-- **Between two lines a tree is a partial derivation tree.** However many lines have been fed to a
fresh parse, each node of the tree is one for a token that belongs to it, for the empty text, or for
the beginning of an alternative of its symbol; the root has the start symbol; and below a closed
node all nodes are closed. -/
theorem partialTree_feedAll (grammar : Grammar) (row : Nat) (lines : List (List Token)) :
    ∀ root ∈ ((⟨none, row⟩ : Parse).feedAll grammar lines).1.root, grammar.PartialTree root := by
  intro root hroot
  have hproper := proper_feedAll (proper_fresh grammar row) lines
  have hfilled : ((⟨none, row⟩ : Parse).feedAll grammar lines).1.Filled :=
    feedAll_induction (motive := Filled) (fun _ line h => filled_feed h line)
      (fun root h => by simp at h) lines
  have heverywhere := hproper.everywhere root hroot
  refine ⟨hproper.symbol root hroot, fun path node hnode => ?_, fun path node hnode hclosed => ?_⟩
  · have hshaped := (heverywhere.of_nodeAt? hnode).here.shaped
    exact hshaped.partialNode ((hfilled root hroot).of_nodeAt? hnode).here
  · exact fun below descendant hbelow =>
      closed_of_nodeAt? (heverywhere.of_nodeAt? hnode) hclosed hbelow

/-- Of three lines the second one is refused, and the third one closes the first pair. -/
theorem partialTree_feedAll_pairLists :
    ∃ root, ((⟨none, 0⟩ : Parse).feedAll pairLists pairLines).1.root = some root ∧
      (root.nodeAt? [0]).map (·.closed) = some true ∧ root.tokens.length = 4 ∧
        pairLists.PartialTree root := by
  have hroot : (((⟨none, 0⟩ : Parse).feedAll pairLists pairLines).1.root.bind
      (·.nodeAt? [0])).map (·.closed) = some true := by cbv
  have htokens : ((⟨none, 0⟩ : Parse).feedAll pairLists pairLines).1.tokens.length = 4 := by cbv
  have hpartial := partialTree_feedAll pairLists 0 pairLines
  rw [tokens] at htokens
  rcases hfound : ((⟨none, 0⟩ : Parse).feedAll pairLists pairLines).1.root with - | root
  · simp [hfound] at hroot
  · rw [hfound] at hroot htokens
    exact ⟨root, rfl, hroot, htokens, hpartial root hfound⟩

end Parse

end LineGrammar

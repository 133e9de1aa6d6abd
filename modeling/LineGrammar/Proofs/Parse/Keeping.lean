import LineGrammar.Proofs.Parse.Closing

/-!
# A tree only grows

Whatever a line does to a tree, its nodes stay where they are, with the symbols, tokens and line
numbers that they have, children are only put behind others, and nothing changes below a closed node
(`Tree.GrowsTo`). A node is changed only at the end of a way on which no node is closed (`Tree.Way`),
and the pass that closes finished nodes leaves closed ones alone; so this holds of every turn, and
of every line (`Parse.growsTo_feed`).
-/

namespace LineGrammar

namespace Tree

variable {tree node now after : Tree} {path : Path} {line : Nat}

/-! ## Growing -/

/-- What a node never changes. -/
def label (tree : Tree) : String × Option Token × Nat :=
  (tree.symbol, tree.token, tree.line)

/-- A node is what another one has become: its symbol, token and line are the same, its children
begin with those from before, and nothing has changed if it was closed. -/
structure Remains (node now : Tree) : Prop where
  symbol : now.symbol = node.symbol
  token : now.token = node.token
  line : now.line = node.line
  children : node.children.map label <+: now.children.map label
  closed : node.closed = true → now = node

theorem Remains.label (h : node.Remains now) : now.label = node.label := by
  rw [Tree.label, h.symbol, h.token, h.line, Tree.label]

theorem Remains.refl (node : Tree) : node.Remains node :=
  ⟨rfl, rfl, rfl, List.prefix_refl _, fun _ => rfl⟩

theorem Remains.trans {last : Tree} (h : node.Remains now) (hlast : now.Remains last) :
    node.Remains last where
  symbol := hlast.symbol.trans h.symbol
  token := hlast.token.trans h.token
  line := hlast.line.trans h.line
  children := h.children.trans hlast.children
  closed := by
    intro hclosed
    have hnow := h.closed hclosed
    rw [hlast.closed (hnow ▸ hclosed), hnow]

/-- All nodes of a tree remain at their paths in another one, and the other nodes have this line. -/
structure GrowsTo (line : Nat) (tree after : Tree) : Prop where
  remains : ∀ path node, tree.nodeAt? path = some node →
    ∃ now, after.nodeAt? path = some now ∧ node.Remains now
  added : ∀ path now, after.nodeAt? path = some now → tree.nodeAt? path = none → now.line = line

theorem GrowsTo.refl (line : Nat) (tree : Tree) : tree.GrowsTo line tree where
  remains _ node hnode := ⟨node, hnode, .refl node⟩
  added _ now hnow hnone := by
    rw [hnone] at hnow
    cases hnow

theorem GrowsTo.trans {last : Tree} (h : tree.GrowsTo line after) (hlast : after.GrowsTo line last) :
    tree.GrowsTo line last where
  remains path node hnode := by
    obtain ⟨now, hnow, hremains⟩ := h.remains path node hnode
    obtain ⟨final, hfinal, hremainsLast⟩ := hlast.remains path now hnow
    exact ⟨final, hfinal, hremains.trans hremainsLast⟩
  added path now hnow hnone := by
    cases hmiddle : after.nodeAt? path with
    | none => exact hlast.added path now hnow hmiddle
    | some middle =>
      obtain ⟨other, hother, hremains⟩ := hlast.remains path middle hmiddle
      obtain rfl := Option.some.inj (hother.symm.trans hnow)
      rw [hremains.line, h.added path middle hmiddle hnone]

theorem GrowsTo.root (h : tree.GrowsTo line after) : tree.Remains after := by
  obtain ⟨now, hnow, hremains⟩ := h.remains [] tree rfl
  obtain rfl : after = now := by simpa [nodeAt?] using hnow
  exact hremains

theorem GrowsTo.of_children (hlabel : after.label = tree.label) (hopen : tree.closed = false)
    (hchildren : ∀ (index : Nat) (child : Tree), tree.children[index]? = some child →
      ∃ now, after.children[index]? = some now ∧ child.GrowsTo line now)
    (hadded : ∀ (index : Nat) (now : Tree), after.children[index]? = some now →
      tree.children[index]? = none → now.Everywhere fun node => node.line = line) :
    tree.GrowsTo line after where
  remains path node hnode := by
    cases path with
    | nil =>
      obtain rfl : tree = node := by simpa [nodeAt?] using hnode
      obtain ⟨hsymbol, htoken, hline⟩ : after.symbol = tree.symbol ∧ after.token = tree.token ∧
          after.line = tree.line := by simpa [label] using hlabel
      refine ⟨after, rfl, hsymbol, htoken, hline, ?_, fun hclosed => ?_⟩
      · rw [List.prefix_iff_getElem?]
        intro index hindex
        rw [List.length_map] at hindex
        obtain ⟨now, hnow, hgrows⟩ := hchildren index _ (List.getElem?_eq_getElem hindex)
        rw [List.getElem?_map, hnow, List.getElem_map, Option.map_some, hgrows.root.label]
      · exact absurd (hclosed.symm.trans hopen) (by simp)
    | cons index path =>
      rw [nodeAt?] at hnode
      split at hnode
      · next child hchild =>
        obtain ⟨now, hnow, hgrows⟩ := hchildren index child hchild
        rw [nodeAt?, hnow]
        exact hgrows.remains path node hnode
      · simp at hnode
  added path now hnow hnone := by
    cases path with
    | nil => simp [nodeAt?] at hnone
    | cons index path =>
      rw [nodeAt?] at hnow hnone
      cases hchanged : after.children[index]? with
      | none => simp [hchanged] at hnow
      | some changed =>
        rw [hchanged] at hnow
        cases hchild : tree.children[index]? with
        | none => exact ((hadded index changed hchanged hchild).of_nodeAt? hnow).here
        | some child =>
          obtain ⟨grown, hgrown, hgrows⟩ := hchildren index child hchild
          obtain rfl := Option.some.inj (hgrown.symm.trans hchanged)
          rw [hchild] at hnone
          exact hgrows.added path now hnow hnone

theorem GrowsTo.of_changed (hlabel : after.label = tree.label) (hopen : tree.closed = false)
    (hlength : after.children.length = tree.children.length)
    (hchildren : ∀ (index : Nat) (child : Tree), tree.children[index]? = some child →
      ∃ now, after.children[index]? = some now ∧ child.GrowsTo line now) :
    tree.GrowsTo line after := by
  refine .of_children hlabel hopen hchildren fun index now hnow hnone => ?_
  rw [List.getElem?_eq_none_iff, ← hlength, ← List.getElem?_eq_none_iff] at hnone
  rw [hnone] at hnow
  cases hnow

/-! ## The way to the node that changes -/

namespace Way

theorem append {inner : Tree} {rest : Path} (h : Way tree path node) (hrest : Way node rest inner) :
    Way tree (path ++ rest) inner := by
  induction h with
  | here => exact hrest
  | under hopen hchild _ ih => exact .under hopen hchild (ih hrest)

theorem closed_modifyAt {change : Tree → Tree} (h : Way tree path node)
    (hchange : (change node).closed = false) : (tree.modifyAt change path).closed = false := by
  cases h with
  | here => rwa [modifyAt_nil]
  | under hopen => rwa [modifyAt_cons]

theorem growsTo {change : Tree → Tree} (h : Way tree path node)
    (hchange : node.GrowsTo line (change node)) : tree.GrowsTo line (tree.modifyAt change path) := by
  induction h with
  | here => rwa [modifyAt_nil]
  | @under tree child node index path hopen hchild _ ih =>
    rw [modifyAt_cons]
    refine .of_changed rfl hopen (List.length_modify _ _ _) fun position other hother => ?_
    dsimp only
    rw [List.getElem?_modify, hother]
    by_cases heq : index = position
    · subst heq
      obtain rfl := Option.some.inj (hchild.symm.trans hother)
      exact ⟨_, by simp, ih hchange⟩
    · exact ⟨other, by simp [heq], .refl line other⟩

end Way

/-- No node is closed on the way to the node where the tree grows, and it is not closed itself. -/
theorem way_of_growthPoint? (h : tree.growthPoint? = some (path, node)) :
    Way tree path node ∧ node.closed = false := by
  unfold growthPoint? at h
  split at h
  · simp at h
  · next outer houter =>
    obtain ⟨other, hway, hopen⟩ := way_of_last? houter
    rw [hway.nodeAt?] at h
    dsimp only at h
    split at h
    · obtain ⟨rfl, rfl⟩ := Prod.mk.inj (Option.some.inj h)
      exact ⟨hway, (closed_and_completion_of_isOpen other hopen).1⟩
    · next inner hinner =>
      obtain ⟨innerNode, hrest, hmay⟩ := way_of_last? hinner
      rw [hrest.nodeAt?] at h
      obtain ⟨rfl, rfl⟩ := Prod.mk.inj (Option.some.inj h)
      exact ⟨hway.append hrest, (closed_and_completion_of_mayGoOn innerNode hmay).1⟩

/-! ## Changes of a node -/

theorem growsTo_markComplete (line : Nat) (hopen : tree.closed = false) :
    tree.GrowsTo line tree.markComplete :=
  .of_changed rfl hopen rfl fun _ child hchild => ⟨child, hchild, .refl line child⟩

theorem growsTo_extendBy {extension : Extension} (hopen : tree.closed = false)
    (hnodes : ∀ node ∈ extension.nodes, node.Everywhere fun node => node.line = line) :
    tree.GrowsTo line (extendBy extension tree) := by
  refine .of_children rfl hopen (fun index child hchild => ⟨child, ?_, .refl line child⟩)
    fun index now hnow hnone => ?_
  · have hindex := (List.getElem?_eq_some_iff.mp hchild).1
    rw [extendBy, List.getElem?_append_left hindex, hchild]
  · rw [List.getElem?_eq_none_iff] at hnone
    rw [extendBy, List.getElem?_append_right hnone] at hnow
    exact hnodes now (List.mem_of_getElem? hnow)

theorem growsTo_close (line : Nat) (tree : Tree) : tree.GrowsTo line tree.close := by
  have hevery : tree.Everywhere fun _ => True := .of_forall (fun _ => trivial) tree
  induction hevery with
  | @intro tree _ _ ih =>
    cases hclosed : tree.closed with
    | true =>
      rw [close_of_closed hclosed]
      exact .refl line tree
    | false =>
      rw [close_of_not_closed hclosed]
      refine .of_changed rfl hclosed (List.length_map _) fun index child hchild => ?_
      have hbelow := ih child (List.mem_of_getElem? hchild)
      dsimp only
      exact ⟨child.close, by rw [List.getElem?_map, hchild, Option.map_some], hbelow⟩

end Tree

namespace Grammar

open LineGrammar.Tree

variable {grammar : Grammar} {line : Nat}

theorem length_closeFinishedAll (grammar : Grammar) (nodes : List Tree) :
    (grammar.closeFinishedAll nodes).length = nodes.length := by
  simpa using congrArg List.length (map_symbol_closeFinishedAll grammar nodes)

theorem growsTo_closeFinished (grammar : Grammar) (line : Nat) :
    ∀ tree : Tree, tree.closed = false → tree.GrowsTo line (grammar.closeFinished tree)
  | ⟨symbol, token, completion, closed, row, children⟩, hopen => by
    rw [closeFinished_eq]
    have hlength := length_closeFinishedAll grammar children
    refine .of_changed rfl hopen hlength fun index child hchild => ?_
    dsimp only at hchild ⊢
    have hindex := (List.getElem?_eq_some_iff.mp hchild).1
    rw [← length_closeFinishedAll grammar] at hindex
    obtain ⟨_, node, rest, -, hnode, hchanged⟩ :=
      exists_of_closeFinishedAll (List.getElem?_eq_getElem hindex)
    obtain rfl := Option.some.inj (hchild.symm.trans hnode)
    have : sizeOf child < sizeOf children := List.sizeOf_lt_of_mem (List.mem_of_getElem? hchild)
    refine ⟨_, List.getElem?_eq_getElem hindex, ?_⟩
    rw [hchanged]
    split
    · exact .refl line child
    · next hchildOpen =>
      split
      · exact growsTo_close line child
      · exact growsTo_closeFinished grammar line child (by simpa using hchildOpen)

/-! ## Turns -/

theorem Reads.line_eq {tokens : List Token} {symbols : List String} {stretch : Stretch}
    (h : Reads grammar line tokens symbols stretch) :
    ∀ node ∈ stretch.nodes, node.Everywhere fun node => node.line = line := by
  have hleaf : ∀ symbol token, (leaf symbol token line).Everywhere fun node => node.line = line :=
    fun symbol token => .intro rfl (by simp [leaf])
  induction h with
  | done => simp [Stretch.empty]
  | empty _ ih => exact List.forall_mem_cons.mpr ⟨hleaf _ _, ih⟩
  | short => simp [Stretch.empty]
  | terminal _ _ _ _ ih => exact List.forall_mem_cons.mpr ⟨hleaf _ _, ih⟩
  | inside _ _ _ _ _ ih => exact List.forall_mem_singleton.mpr (.intro rfl ih)
  | symbol _ _ _ _ _ _ ihInner ihRest =>
    exact List.forall_mem_cons.mpr ⟨.intro rfl ihInner, ihRest⟩

theorem growsTo_grow (grammar : Grammar) (line : Nat) (token : Token) (tokens : List Token)
    (furthest : Nat) (growth : Growth) :
    growth.tree.GrowsTo line (grammar.grow line token tokens furthest growth).1.tree ∧
      ∀ consumed, (grammar.grow line token tokens furthest growth).2 = .ok consumed →
        (grammar.grow line token tokens furthest growth).1.tree.closed = false := by
  fun_induction grow grammar line token tokens furthest growth with
  | case1 => exact ⟨.refl line _, by simp⟩
  | case2 furthest growth path node hpoint found further hread extension hfilter =>
    obtain ⟨hway, hopen⟩ := way_of_growthPoint? hpoint
    obtain ⟨hfound, -⟩ := Option.filter_eq_some_iff.mp hfilter
    obtain ⟨_, -, stretch, -, -, hreads, hnodes, -⟩ :=
      extends_of_readOn (show (grammar.readOn line node.symbol node.children (token :: tokens)).1 =
        some extension by rw [hread, hfound])
    exact ⟨hway.growsTo (growsTo_extendBy hopen (hnodes ▸ hreads.line_eq)),
      fun _ _ => hway.closed_modifyAt hopen⟩
  | case3 => exact ⟨.refl line _, by simp⟩
  | case4 furthest growth path node hpoint found further hread _ hfilter hpath ih =>
    obtain ⟨hway, hopen⟩ := way_of_growthPoint? hpoint
    exact ⟨(hway.growsTo (growsTo_markComplete line hopen)).trans ih.1, ih.2⟩

theorem growsTo_growAll (grammar : Grammar) (line : Nat) (growth : Growth) (tokens : List Token) :
    growth.tree.GrowsTo line (grammar.growAll line growth tokens).1.tree := by
  fun_induction growAll grammar line growth tokens with
  | case1 => exact .refl line _
  | case2 growth token tokens grown error hgrow =>
    have hturn := (growsTo_grow grammar line token tokens 0 growth).1
    rwa [hgrow] at hturn
  | case3 growth token tokens grown consumed hgrow ih =>
    obtain ⟨hturn, hopen⟩ := growsTo_grow grammar line token tokens 0 growth
    rw [hgrow] at hturn hopen
    have hpass := growsTo_closeFinished grammar line grown.tree (hopen consumed rfl)
    exact (hturn.trans hpass).trans ih

end Grammar

namespace Parse

open LineGrammar.Tree

/-- The node of the tree at a path. Without a tree there is none. -/
def nodeAt? (parse : Parse) (path : Path) : Option Tree :=
  parse.root.bind (·.nodeAt? path)

/-- All nodes remain at their paths, and the others have the number of the next line. -/
structure GrowsTo (parse after : Parse) : Prop where
  remains : ∀ path node, parse.nodeAt? path = some node →
    ∃ now, after.nodeAt? path = some now ∧ node.Remains now
  added : ∀ path now, after.nodeAt? path = some now → parse.nodeAt? path = none →
    now.line = parse.line + 1

/-- **The tree only grows.** Where a line is fed, each node of the tree is found at its path
afterwards, with the same symbol, token and line and with its children in front of all others, and
with all below it as it was if it was closed. The nodes that are added have the number of this
line. -/
theorem growsTo_feed (parse : Parse) (grammar : Grammar) (tokens : List Token) :
    parse.GrowsTo (parse.feed grammar tokens).1 := by
  rcases parse.feed_cases grammar tokens with ⟨hroot, -⟩ | ⟨start, growth, -, -, hgrow, hroot⟩
  · constructor
    · intro path node hnode
      rw [nodeAt?, hroot]
      exact ⟨node, hnode, .refl node⟩
    · intro path now hnow hnone
      rw [nodeAt?, hroot, ← nodeAt?, hnone] at hnow
      cases hnow
  · have hgrows := grammar.growsTo_growAll (parse.line + 1)
      { tree := parse.root.getD (.branch start (parse.line + 1)) } tokens
    rw [hgrow] at hgrows
    have hafter : ∀ path, (parse.feed grammar tokens).1.nodeAt? path = growth.tree.nodeAt? path := by
      intro path
      rw [nodeAt?, hroot]
      rfl
    cases hbefore : parse.root with
    | some root =>
      rw [hbefore] at hgrows
      have hpath : ∀ path, parse.nodeAt? path = root.nodeAt? path := by
        intro path
        rw [nodeAt?, hbefore]
        rfl
      constructor
      · intro path node hnode
        rw [hafter]
        exact hgrows.remains path node (hpath path ▸ hnode)
      · intro path now hnow hnone
        exact hgrows.added path now (hafter path ▸ hnow) (hpath path ▸ hnone)
    | none =>
      rw [hbefore] at hgrows
      constructor
      · intro path node hnode
        simp [nodeAt?, hbefore] at hnode
      · -- the first node is one that this line adds
        intro path now hnow _
        rw [hafter] at hnow
        cases path with
        | nil =>
          obtain rfl : growth.tree = now := by simpa [Tree.nodeAt?] using hnow
          exact hgrows.root.line
        | cons index path => exact hgrows.added _ now hnow rfl

end Parse

end LineGrammar

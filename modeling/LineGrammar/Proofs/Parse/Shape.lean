import LineGrammar.Proofs.Grammar.Derivation
import LineGrammar.Proofs.Parse.TokenOrder
import LineGrammar.Proofs.Tree.Everywhere

/-!
# What the nodes of a tree stand for

Each node of a tree that has grown stands for a token, for the empty text, or for the beginning of an
alternative of its symbol (`Shaped`). A node that can still grow has read some token, and only nodes
for the empty text stand behind it. All this is so of what is read anew (`Reads.proper`), and stays
so where a tree grows and where finished nodes are closed (`proper_growAll`).
-/

namespace LineGrammar

namespace Tree

/-- Behind a node that is not settled there are only nodes of the empty text. -/
def BlankBehind : List Tree → Prop
  | [] => True
  | tree :: trees =>
    (tree.Settled ∨ ∀ other ∈ trees, other.symbol = emptyText) ∧ BlankBehind trees

theorem blankBehind_append {trees others : List Tree} (htrees : SettledAll trees)
    (hothers : BlankBehind others) : BlankBehind (trees ++ others) := by
  induction trees with
  | nil => exact hothers
  | cons tree trees ih => exact ⟨.inl htrees.1, ih htrees.2⟩

theorem blankBehind_of_append {trees others : List Tree} (h : BlankBehind (trees ++ others)) :
    BlankBehind others := by
  induction trees with
  | nil => exact h
  | cons tree trees ih => exact ih h.2

end Tree

namespace Grammar

open LineGrammar.Tree

variable {grammar : Grammar} {line : Nat} {tokens : List Token} {symbols : List String}
  {stretch : Stretch}

/-- A text of these symbols may begin with a token. -/
def Begun (grammar : Grammar) (symbols : List String) : Prop :=
  ∃ terminal, grammar.isTerminal terminal = true ∧ terminal ≠ emptyText ∧
    Begins grammar.Writes symbols terminal

theorem Begun.append (h : grammar.Begun symbols) (others : List String) :
    grammar.Begun (symbols ++ others) := by
  obtain ⟨terminal, hterminal, hne, hbegins⟩ := h
  exact ⟨terminal, hterminal, hne, begins_append.mpr (.inl hbegins)⟩

/-- The token belongs to the terminal, which is a declared one and not the empty text. -/
def Spells (grammar : Grammar) (terminal : String) (token : Token) : Prop :=
  grammar.isTerminal terminal = true ∧ terminal ≠ emptyText ∧
    grammar.accepts terminal token = true

/-- What a node stands for. -/
inductive Shaped (grammar : Grammar) : Tree → Prop where
  | token {terminal : String} {token : Token} (line : Nat) (h : grammar.Spells terminal token) :
      Shaped grammar (.leaf terminal (some token) line)
  | blank (line : Nat) : Shaped grammar (.leaf emptyText none line)
  /-- The node has read the beginning of an alternative, and some token if it can grow. -/
  | key {tree : Tree} (unread : List String) (htoken : tree.token = none)
      (halternative : tree.children.map (·.symbol) ++ unread ∈ grammar.alternatives tree.symbol)
      (hbegun : tree.isOpen = true → grammar.Begun (tree.children.map (·.symbol))) :
      Shaped grammar tree

/-- How growth leaves a node. -/
structure Proper (grammar : Grammar) (tree : Tree) : Prop where
  shaped : grammar.Shaped tree
  blankBehind : BlankBehind tree.children
  closed : tree.closed = true → ∀ child ∈ tree.children, child.closed = true

theorem Proper.of_not_closed {tree : Tree} (hshaped : grammar.Shaped tree)
    (hbehind : BlankBehind tree.children) (hclosed : tree.closed = false) :
    grammar.Proper tree :=
  ⟨hshaped, hbehind, fun h => absurd (h.symm.trans hclosed) (by simp)⟩

theorem Proper.settledAll_of_closed {tree : Tree} (h : grammar.Proper tree)
    (hclosed : tree.closed = true) : SettledAll tree.children :=
  settledAll_iff.mpr fun child hchild => settled_of_closed (h.closed hclosed child hchild)

theorem Proper.settledAll_children {tree : Tree} (h : grammar.Proper tree)
    (hsettled : tree.Settled) : SettledAll tree.children := by
  obtain ⟨symbol, token, completion, closed, line, children⟩ := tree
  rcases hsettled with hclosed | ⟨-, hchildren⟩
  · exact h.settledAll_of_closed hclosed
  · exact hchildren

theorem Proper.edgeOpenAll_children {tree : Tree} (h : grammar.Proper tree)
    (hedge : tree.EdgeOpen) : EdgeOpenAll tree.children := by
  obtain ⟨symbol, token, completion, closed, line, children⟩ := tree
  rcases hedge with hclosed | hchildren
  · exact edgeOpenAll_of_settledAll (h.settledAll_of_closed hclosed)
  · exact hchildren

theorem proper_leaf {terminal : String} {token : Option Token} {line : Nat}
    (h : grammar.Shaped (.leaf terminal token line)) :
    (leaf terminal token line).Everywhere grammar.Proper :=
  .intro ⟨h, trivial, fun _ child hchild => by simp [leaf] at hchild⟩
    fun child hchild => by simp [leaf] at hchild

theorem Shaped.exists_alternative {tree : Tree} (h : grammar.Shaped tree)
    (hclosed : tree.closed = false) : tree.token = none ∧
      (∃ unread, tree.children.map (·.symbol) ++ unread ∈ grammar.alternatives tree.symbol) ∧
      (tree.isOpen = true → grammar.Begun (tree.children.map (·.symbol))) := by
  cases h with
  | token => simp [leaf] at hclosed
  | blank => simp [leaf] at hclosed
  | key unread htoken halternative hbegun => exact ⟨htoken, ⟨unread, halternative⟩, hbegun⟩

/-! ## Reading -/

theorem Reads.symbols_append (h : Reads grammar line tokens symbols stretch) :
    stretch.nodes.map (·.symbol) ++ symbols.drop stretch.nodes.length = symbols := by
  induction h with
  | done => rfl
  | empty _ ih => exact congrArg (emptyText :: ·) ih
  | short => rfl
  | terminal _ _ _ _ ih => exact congrArg (_ :: ·) ih
  | inside => rfl
  | symbol _ _ _ _ _ _ _ ih => exact congrArg (_ :: ·) ih

theorem Reads.symbol_of_nil (h : Reads grammar line [] symbols stretch) :
    ∀ node ∈ stretch.nodes, node.symbol = emptyText := by
  generalize htokens : ([] : List Token) = tokens at h
  induction h with
  | done => simp [Stretch.empty]
  | empty _ ih =>
    intro node hnode
    rcases List.mem_cons.mp hnode with rfl | hnode
    · rfl
    · exact ih htokens node hnode
  | short => simp [Stretch.empty]
  | terminal => simp at htokens
  | inside => simp at htokens
  | symbol => simp at htokens

theorem Reads.begins_or_vanishes {token : Token} {later : List Token}
    (h : Reads grammar line (token :: later) symbols stretch) :
    (0 < stretch.consumed → ∃ terminal, grammar.Spells terminal token ∧
      Begins grammar.Writes symbols terminal ∧
      Begins grammar.Writes (stretch.nodes.map (·.symbol)) terminal) ∧
    (stretch.consumed = 0 → Vanishes grammar.Writes symbols) := by
  generalize htokens : token :: later = tokens at h
  induction h with
  | done => exact ⟨fun h => absurd h (Nat.lt_irrefl 0), fun _ => .refl []⟩
  | empty hrest ih =>
    obtain ⟨hbegins, hvanishes⟩ := ih htokens
    have hempty : Vanishing grammar.Writes emptyText :=
      .intro grammar.writes_emptyText (by simp)
    have hpast : Vanishes grammar.Writes [emptyText] := vanishes_singleton hempty
    refine ⟨fun hpos => ?_, fun hzero => ?_⟩
    · obtain ⟨terminal, hspells, hfirst, hnodes⟩ := hbegins (by simpa [Stretch.cons] using hpos)
      exact ⟨terminal, hspells, begins_append.mpr (.inr ⟨hpast, hfirst⟩),
        begins_append.mpr (.inr ⟨hpast, hnodes⟩)⟩
    · exact vanishes_cons.mpr ⟨hempty, hvanishes (by simpa [Stretch.cons] using hzero)⟩
  | short => simp at htokens
  | terminal hsymbol hterminal haccepts hrest ih =>
    obtain ⟨rfl, rfl⟩ := List.cons.inj htokens
    refine ⟨fun _ => ⟨_, ⟨hterminal, hsymbol, haccepts⟩, ⟨_, .refl _⟩, ⟨_, .refl _⟩⟩, fun hzero => ?_⟩
    simp [Stretch.cons] at hzero
  | inside hsymbol hterminal halternative hinner hsettled ih =>
    obtain ⟨hbegins, hvanishes⟩ := ih htokens
    refine ⟨fun hpos => ?_, fun hzero => ?_⟩
    · obtain ⟨terminal, hspells, hfirst, -⟩ := hbegins hpos
      exact ⟨terminal, hspells, begins_cons_of_writes (.inl halternative) hfirst,
        begins_cons_of_writes (.inl halternative) hfirst⟩
    · -- a symbol that has taken no token is not left before the tokens end
      refine absurd (hinner.settled_of_lt ?_).1 hsettled
      dsimp only at hzero
      simp [hzero]
  | symbol hsymbol hterminal halternative hinner hcompletion hrest ihInner ihRest =>
    obtain ⟨hbegins, hvanishes⟩ := ihInner htokens
    refine ⟨fun hpos => ?_, fun hzero => ?_⟩
    · rcases Nat.eq_zero_or_pos (Stretch.consumed _) with hnone | hsome
      · rw [hnone] at ihRest
        obtain ⟨terminal, hspells, hfirst, hnodes⟩ :=
          (ihRest htokens).1 (by simpa [Stretch.cons, hnone] using hpos)
        have hpast : Vanishes grammar.Writes [_] := (Derives.of_writes (.inl halternative)).trans
          (hvanishes hnone)
        exact ⟨terminal, hspells, begins_append.mpr (.inr ⟨hpast, hfirst⟩),
          begins_append.mpr (.inr ⟨hpast, hnodes⟩)⟩
      · obtain ⟨terminal, hspells, hfirst, -⟩ := hbegins hsome
        exact ⟨terminal, hspells, begins_cons_of_writes (.inl halternative) hfirst,
          begins_cons_of_writes (.inl halternative) hfirst⟩
    · obtain ⟨hnone, hrestNone⟩ := Nat.add_eq_zero_iff.mp hzero
      rw [hnone] at ihRest
      exact .cons (.inl halternative)
        (vanishes_append.mpr ⟨hvanishes hnone, (ihRest htokens).2 hrestNone⟩)

theorem Reads.shaped {token : Token} {later : List Token} {alternative : Alternative}
    {completion : Completion} {symbol : String}
    (h : Reads grammar line (token :: later) alternative stretch)
    (halternative : alternative ∈ grammar.alternatives symbol)
    (hcompletion : completion.Fits stretch.settled alternative.length) :
    grammar.Shaped ⟨symbol, none, completion, false, line, stretch.nodes⟩ := by
  refine .key (alternative.drop stretch.nodes.length) rfl ?_ fun hopen => ?_
  · rwa [h.symbols_append]
  · -- what is not settled is left where the tokens end, so that some have been taken
    have hunsettled : stretch.settled ≠ alternative.length := fun hfull =>
      (closed_and_completion_of_isOpen _ hopen).2 (hcompletion.mpr hfull)
    have hpos : 0 < stretch.consumed := by
      by_contra hnone
      refine hunsettled (h.settled_of_lt ?_).1
      rw [List.length_cons]
      omega
    obtain ⟨terminal, hspells, -, hnodes⟩ := h.begins_or_vanishes.1 hpos
    exact ⟨terminal, hspells.1, hspells.2.1, hnodes⟩

theorem Reads.proper (h : Reads grammar line tokens symbols stretch) :
    (∀ node ∈ stretch.nodes, node.Everywhere grammar.Proper) ∧ BlankBehind stretch.nodes := by
  induction h with
  | done => exact ⟨by simp [Stretch.empty], trivial⟩
  | empty _ ih =>
    exact ⟨List.forall_mem_cons.mpr ⟨proper_leaf (.blank _), ih.1⟩, .inl (settled_leaf _ _ _), ih.2⟩
  | short => exact ⟨by simp [Stretch.empty], trivial⟩
  | terminal hsymbol hterminal haccepts _ ih =>
    exact ⟨List.forall_mem_cons.mpr ⟨proper_leaf (.token _ ⟨hterminal, hsymbol, haccepts⟩), ih.1⟩,
      .inl (settled_leaf _ _ _), ih.2⟩
  | inside _ _ halternative hinner hsettled ih =>
    have hcompletion : Completion.Fits .incomplete _ _ :=
      ⟨fun h => by simp at h, fun h => absurd h hsettled⟩
    have hshaped := hinner.shaped halternative hcompletion
    refine ⟨List.forall_mem_singleton.mpr ?_, .inr (by simp), trivial⟩
    exact .intro (.of_not_closed hshaped ih.2 rfl) ih.1
  | @symbol _ _ token later _ inner rest completion _ _ halternative hinner hcompletion hrest
      ihInner ihRest =>
    have hshaped := hinner.shaped halternative hcompletion
    refine ⟨List.forall_mem_cons.mpr ⟨?_, ihRest.1⟩, ?_, ihRest.2⟩
    · exact .intro (.of_not_closed hshaped ihInner.2 rfl) ihInner.1
    · by_cases hlt : inner.consumed < (token :: later).length
      · obtain ⟨hfull, hnodes⟩ := hinner.settled_of_lt hlt
        exact .inl (.inr ⟨hcompletion.mpr hfull, hnodes⟩)
      · -- the inner symbol has taken all tokens
        rw [List.drop_eq_nil_of_le (Nat.le_of_not_lt hlt)] at hrest
        exact .inr hrest.symbol_of_nil

/-! ## Growth -/

/-- A node that changes where a tree grows, with its symbol kept and not closed, changes no other
node. -/
theorem everywhere_modifyAt {tree node : Tree} {path : Path} {change : Tree → Tree}
    (hopen : OpenAt tree path node) (htree : tree.Everywhere grammar.Proper)
    (hchange : (change node).Everywhere grammar.Proper)
    (hsymbol : (change node).symbol = node.symbol) (hclosed : (change node).closed = node.closed) :
    (tree.modifyAt change path).Everywhere grammar.Proper ∧
      (tree.modifyAt change path).symbol = tree.symbol ∧
      (tree.modifyAt change path).closed = tree.closed := by
  induction hopen with
  | here => exact ⟨by rwa [modifyAt_nil], by rwa [modifyAt_nil], by rwa [modifyAt_nil]⟩
  | @under symbol token completion line before after child node path hbefore hchild hafter htokens
      ih =>
    obtain ⟨hbelow, hsame, -⟩ := ih (htree.child child (by simp)) hchange hsymbol hclosed
    rw [OpenAt.modifyAt_under]
    obtain ⟨htoken, ⟨unread, halternative⟩, hbegun⟩ := htree.here.shaped.exists_alternative rfl
    have hsymbols : (before ++ child.modifyAt change path :: after).map (·.symbol) =
        (before ++ child :: after).map (·.symbol) := by
      rw [List.map_append, List.map_append, List.map_cons, List.map_cons, hsame]
    refine ⟨.intro (.of_not_closed (.key unread htoken ?_ ?_) ?_ rfl) ?_, rfl, rfl⟩
    · dsimp only
      rwa [hsymbols]
    · dsimp only
      rwa [hsymbols]
    · obtain ⟨hblank, hrest⟩ := blankBehind_of_append htree.here.blankBehind
      exact blankBehind_append hbefore ⟨.inr (hblank.resolve_left hchild.not_settled), hrest⟩
    · intro other hother
      rcases List.mem_append.mp hother with hother | hother
      · exact htree.child other (List.mem_append_left _ hother)
      · rcases List.mem_cons.mp hother with rfl | hother
        · exact hbelow
        · exact htree.child other (by simp [hother])

theorem proper_markComplete {node : Tree} (hclosed : node.closed = false)
    (h : node.Everywhere grammar.Proper) : node.markComplete.Everywhere grammar.Proper := by
  obtain ⟨htoken, ⟨unread, halternative⟩, -⟩ := h.here.shaped.exists_alternative hclosed
  refine .intro (.of_not_closed (.key unread htoken halternative ?_) h.here.blankBehind hclosed)
    h.child
  intro hopen
  exact absurd rfl (closed_and_completion_of_isOpen _ hopen).2

/-- A node without a token that has not read anything yet. -/
def Fresh (tree : Tree) : Prop :=
  tree.token = none ∧ tree.children = [] ∧ tree.closed = false

theorem eq_of_fresh {tree node : Tree} {path : Path} (hopen : OpenAt tree path node)
    (h : Fresh tree) : path = [] ∧ node = tree := by
  cases hopen with
  | here => exact ⟨rfl, rfl⟩
  | under => simp [Fresh] at h

theorem proper_extendBy {node : Tree} {token : Token} {later : List Token} {extension : Extension}
    (hopen : node.isOpen = true) (hsettled : SettledAll node.children)
    (h : Fresh node ∨ node.Everywhere grammar.Proper)
    (hread : (grammar.readOn line node.symbol node.children (token :: later)).1 = some extension)
    (hpos : 0 < extension.consumed) : (extendBy extension node).Everywhere grammar.Proper := by
  obtain ⟨alternative, hmem, stretch, ⟨rest, rfl⟩, -, hreads, hnodes, hconsumed, -⟩ :=
    extends_of_readOn hread
  rw [List.drop_left] at hreads
  rw [hconsumed] at hpos
  have hclosed : node.closed = false := (closed_and_completion_of_isOpen _ hopen).1
  have htoken : node.token = none := by
    rcases h with h | h
    · exact h.1
    · exact (h.here.shaped.exists_alternative hclosed).1
  have hchildren : ∀ child ∈ node.children, child.Everywhere grammar.Proper := by
    rcases h with ⟨-, h, -⟩ | h
    · simp [h]
    · exact h.child
  have hbegun : grammar.Begun ((node.children ++ stretch.nodes).map (·.symbol)) := by
    rw [List.map_append]
    rcases h with ⟨-, h, -⟩ | h
    · obtain ⟨terminal, hspells, -, hbegins⟩ := hreads.begins_or_vanishes.1 hpos
      rw [h]
      exact ⟨terminal, hspells.1, hspells.2.1, hbegins⟩
    · exact ((h.here.shaped.exists_alternative hclosed).2.2 hopen).append _
  refine .intro (.of_not_closed (.key (rest.drop stretch.nodes.length) htoken ?_ fun _ => ?_) ?_
    hclosed) ?_
  · rw [extendBy, hnodes, List.map_append, List.append_assoc, hreads.symbols_append]
    exact hmem
  · rwa [extendBy, hnodes]
  · rw [extendBy, hnodes]
    exact blankBehind_append hsettled hreads.proper.2
  · rw [extendBy, hnodes]
    exact List.forall_mem_append.mpr ⟨hchildren, hreads.proper.1⟩

theorem proper_grow (token : Token) (tokens : List Token) (furthest : Nat) (growth : Growth)
    (hedge : growth.tree.EdgeOpen)
    (htree : Fresh growth.tree ∨ growth.tree.Everywhere grammar.Proper) {consumed : Nat}
    (h : (grammar.grow line token tokens furthest growth).2 = .ok consumed) :
    (grammar.grow line token tokens furthest growth).1.tree.Everywhere grammar.Proper := by
  fun_induction grow grammar line token tokens furthest growth with
  | case1 => simp at h
  | case2 furthest growth path node hpoint found further hread extension hfilter =>
    have hopen := openAt_of_growthPoint? hpoint hedge
    obtain ⟨hfound, hpos⟩ := Option.filter_eq_some_iff.mp hfilter
    have hextend : Fresh node ∨ node.Everywhere grammar.Proper →
        (extendBy extension node).Everywhere grammar.Proper := fun hnode =>
      proper_extendBy hopen.isOpen hopen.settledAll_children hnode (by rw [hread, hfound])
        (by simpa using hpos)
    rcases htree with hfresh | htree
    · obtain ⟨rfl, rfl⟩ := eq_of_fresh hopen hfresh
      rw [Growth.extend, modifyAt_nil]
      exact hextend (.inl hfresh)
    · exact (everywhere_modifyAt hopen htree (hextend (.inr (htree.of_nodeAt? hopen.nodeAt?))) rfl
        rfl).1
  | case3 => simp at h
  | case4 furthest growth path node hpoint found further hread _ hfilter hpath ih =>
    have hopen := openAt_of_growthPoint? hpoint hedge
    have htree := htree.resolve_left fun hfresh => hpath (eq_of_fresh hopen hfresh).1
    have hmarked := proper_markComplete (closed_and_completion_of_isOpen _ hopen.isOpen).1
      (htree.of_nodeAt? hopen.nodeAt?)
    exact ih (hopen.growing (growing_markComplete hopen.settledAll_children)).edgeOpen
      (.inr (everywhere_modifyAt hopen htree hmarked rfl rfl).1) h

/-! ## Closing finished nodes -/

/-- What happens to a node where finished nodes are closed, given the one behind it. -/
theorem mem_closeFinishedAll {nodes : List Tree} {changed : Tree}
    (h : changed ∈ grammar.closeFinishedAll nodes) :
    ∃ node ∈ nodes, changed = node ∨ changed = node.close ∨
      node.closed = false ∧ changed = grammar.closeFinished node := by
  induction nodes with
  | nil => simp [closeFinishedAll] at h
  | cons node rest ih =>
    rw [closeFinishedAll] at h
    rcases List.mem_cons.mp h with rfl | hrest
    · refine ⟨node, List.mem_cons_self, ?_⟩
      split
      · exact .inl rfl
      · next hclosed =>
        split
        · exact .inr (.inl rfl)
        · exact .inr (.inr ⟨by simpa using hclosed, rfl⟩)
    · obtain ⟨other, hother, hcases⟩ := ih hrest
      exact ⟨other, List.mem_cons_of_mem _ hother, hcases⟩

theorem closeFinished_eq (tree : Tree) : grammar.closeFinished tree =
    { tree with children := grammar.closeFinishedAll tree.children } := by
  obtain ⟨symbol, token, completion, closed, line, children⟩ := tree
  rw [closeFinished]

theorem map_symbol_closeFinishedAll (grammar : Grammar) (nodes : List Tree) :
    (grammar.closeFinishedAll nodes).map (·.symbol) = nodes.map (·.symbol) := by
  induction nodes with
  | nil => rfl
  | cons node rest ih =>
    rw [closeFinishedAll, List.map_cons, List.map_cons, ih]
    congr 1
    split
    · rfl
    · split
      · exact symbol_close node
      · rw [closeFinished_eq]

theorem blankBehind_closeFinishedAll {nodes : List Tree} (h : BlankBehind nodes) :
    BlankBehind (grammar.closeFinishedAll nodes) := by
  induction nodes with
  | nil => exact h
  | cons node rest ih =>
    rw [closeFinishedAll]
    refine ⟨?_, ih h.2⟩
    rcases h.1 with hsettled | hblank
    · refine .inl ?_
      split
      · exact hsettled
      · split
        · exact settled_of_closed node.closed_close
        · exact settled_closeFinished grammar hsettled
    · refine .inr fun other hother => ?_
      have hsymbol : other.symbol ∈ rest.map (·.symbol) := by
        rw [← map_symbol_closeFinishedAll grammar]
        exact List.mem_map_of_mem hother
      obtain ⟨before, hbefore, heq⟩ := List.mem_map.mp hsymbol
      rw [← heq]
      exact hblank before hbefore

theorem proper_close {tree : Tree} (h : tree.Everywhere grammar.Proper) :
    tree.close.Everywhere grammar.Proper := by
  induction h with
  | @intro tree hproper hchildren ih =>
    cases hclosed : tree.closed with
    | true =>
      rw [close_of_closed hclosed]
      exact .intro hproper hchildren
    | false =>
      obtain ⟨htoken, ⟨unread, halternative⟩, -⟩ := hproper.shaped.exists_alternative hclosed
      have hsymbols : (tree.children.map close).map (·.symbol) = tree.children.map (·.symbol) := by
        rw [List.map_map]
        exact List.map_congr_left fun child _ => symbol_close child
      rw [close_of_not_closed hclosed]
      refine .intro ⟨.key unread htoken ?_ fun hopen => ?_, ?_, ?_⟩ ?_
      · dsimp only
        rwa [hsymbols]
      · exact absurd (closed_and_completion_of_isOpen _ hopen).1 (by simp)
      · have hsettled : SettledAll (tree.children.map close) :=
          settledAll_iff.mpr (List.forall_mem_map.mpr fun child _ =>
            settled_of_closed child.closed_close)
        rw [← List.append_nil (tree.children.map close)]
        exact blankBehind_append hsettled trivial
      · exact fun _ => List.forall_mem_map.mpr fun child _ => child.closed_close
      · exact List.forall_mem_map.mpr ih

theorem proper_closeFinished {tree : Tree} (h : tree.Everywhere grammar.Proper) :
    (grammar.closeFinished tree).Everywhere grammar.Proper := by
  induction h with
  | @intro tree hproper hchildren ih =>
    rw [closeFinished_eq]
    refine .intro ⟨?_, blankBehind_closeFinishedAll hproper.blankBehind, ?_⟩ ?_
    · cases hproper.shaped with
      | token line hspells => exact .token line hspells
      | blank line => exact .blank line
      | key unread htoken halternative hbegun =>
        refine .key unread htoken ?_ ?_
        · dsimp only
          rwa [map_symbol_closeFinishedAll]
        · dsimp only
          rwa [map_symbol_closeFinishedAll]
    · intro hclosed changed hchanged
      obtain ⟨node, hnode, rfl | rfl | ⟨hopen, -⟩⟩ := mem_closeFinishedAll hchanged
      · exact hproper.closed hclosed changed hnode
      · exact node.closed_close
      · exact absurd ((hproper.closed hclosed node hnode).symm.trans hopen) (by simp)
    · intro changed hchanged
      obtain ⟨node, hnode, rfl | rfl | ⟨-, rfl⟩⟩ := mem_closeFinishedAll hchanged
      · exact hchildren changed hnode
      · exact proper_close (hchildren node hnode)
      · exact ih node hnode

theorem proper_growAll (line : Nat) (growth : Growth) (tokens : List Token)
    (hedge : growth.tree.EdgeOpen)
    (htree : (Fresh growth.tree ∧ tokens ≠ []) ∨ growth.tree.Everywhere grammar.Proper)
    (h : (grammar.growAll line growth tokens).2 = .ok ()) :
    (grammar.growAll line growth tokens).1.tree.Everywhere grammar.Proper := by
  fun_induction growAll grammar line growth tokens with
  | case1 => exact htree.resolve_left fun hfresh => hfresh.2 rfl
  | case2 => simp at h
  | case3 growth token tokens grown consumed hgrow ih =>
    have hok : (grammar.grow line token tokens 0 growth).2 = .ok consumed := by rw [hgrow]
    have hturn := proper_grow token tokens 0 growth hedge (htree.imp_left And.left) hok
    have hedges := (tokens_grow grammar line token tokens 0 growth hedge hok).1
    rw [hgrow] at hturn hedges
    exact ih (edgeOpen_closeFinished grammar hedges) (.inr (proper_closeFinished hturn)) h

theorem symbol_modifyAt (change : Tree → Tree)
    (hchange : ∀ node, (change node).symbol = node.symbol) (tree : Tree) (path : Path) :
    (tree.modifyAt change path).symbol = tree.symbol := by
  cases path with
  | nil => rw [modifyAt_nil, hchange]
  | cons index path => rw [modifyAt_cons]

theorem symbol_grow (grammar : Grammar) (line : Nat) (token : Token) (tokens : List Token)
    (furthest : Nat) (growth : Growth) :
    (grammar.grow line token tokens furthest growth).1.tree.symbol = growth.tree.symbol := by
  fun_induction grow grammar line token tokens furthest growth with
  | case1 => rfl
  | case2 furthest growth path node hpoint found further hread extension hfilter =>
    exact symbol_modifyAt (extendBy extension) (fun _ => rfl) growth.tree path
  | case3 => rfl
  | case4 furthest growth path node hpoint found further hread _ hfilter hpath ih =>
    rw [ih]
    exact symbol_modifyAt Tree.markComplete (fun _ => rfl) growth.tree path

theorem symbol_growAll (grammar : Grammar) (line : Nat) (growth : Growth) (tokens : List Token) :
    (grammar.growAll line growth tokens).1.tree.symbol = growth.tree.symbol := by
  fun_induction growAll grammar line growth tokens with
  | case1 => rfl
  | case2 growth token tokens grown error hgrow =>
    have h := symbol_grow grammar line token tokens 0 growth
    rwa [hgrow] at h
  | case3 growth token tokens grown consumed hgrow ih =>
    have h := symbol_grow grammar line token tokens 0 growth
    rw [hgrow] at h
    rw [ih, ← h, Growth.closeFinished, closeFinished_eq]

end Grammar

namespace Parse

open LineGrammar.Grammar

/-- The tree of the parse, if there is one, is one of the start symbol as growth leaves it. -/
structure Proper (grammar : Grammar) (parse : Parse) : Prop where
  edgeOpen : parse.EdgeOpen
  symbol : ∀ root ∈ parse.root, grammar.start? = some root.symbol
  everywhere : ∀ root ∈ parse.root, root.Everywhere grammar.Proper

theorem feed_cases (parse : Parse) (grammar : Grammar) (line : List Token) :
    ((parse.feed grammar line).1.root = parse.root ∧
      (line = [] ∨ ∃ error, (parse.feed grammar line).2 = .error error)) ∨
    ∃ start growth, line ≠ [] ∧ grammar.start? = some start ∧
      grammar.growAll (parse.line + 1) { tree := parse.root.getD (.branch start (parse.line + 1)) }
        line = (growth, .ok ()) ∧ (parse.feed grammar line).1.root = some growth.tree := by
  by_cases hempty : line = []
  · refine .inl ⟨?_, .inl hempty⟩
    rw [feed, if_pos hempty]
  · cases hresult : (parse.feed grammar line).2 with
    | error error => exact .inl ⟨root_feed_of_error hresult, .inr ⟨error, rfl⟩⟩
    | ok expected =>
      refine .inr ?_
      rw [feed, if_neg hempty] at hresult
      rw [feed, if_neg hempty]
      cases hstart : grammar.start? with
      | none => simp [hstart] at hresult
      | some start =>
        rw [hstart] at hresult
        dsimp only at hresult ⊢
        rcases hgrow : grammar.growAll (parse.line + 1)
          { tree := parse.root.getD (.branch start (parse.line + 1)) } line with
            ⟨growth, error | ⟨⟨⟩⟩⟩
        · rw [hgrow] at hresult
          simp at hresult
        · exact ⟨start, growth, hempty, rfl, hgrow, rfl⟩

theorem Proper.getD {grammar : Grammar} {parse : Parse} (h : parse.Proper grammar) {start : String}
    (hstart : grammar.start? = some start) (row : Nat) :
    (parse.root.getD (.branch start row)).EdgeOpen ∧
      (parse.root.getD (.branch start row)).symbol = start ∧
      (Fresh (parse.root.getD (.branch start row)) ∨
        (parse.root.getD (.branch start row)).Everywhere grammar.Proper) := by
  cases hroot : parse.root with
  | none => exact ⟨.inr trivial, rfl, .inl ⟨rfl, rfl, rfl⟩⟩
  | some root =>
    have hsymbol := Option.some.inj (hstart.symm.trans (h.symbol root hroot))
    exact ⟨h.edgeOpen root hroot, hsymbol.symm, .inr (h.everywhere root hroot)⟩

theorem proper_feed {grammar : Grammar} {parse : Parse} (h : parse.Proper grammar)
    (line : List Token) : (parse.feed grammar line).1.Proper grammar := by
  have hedge := (tokens_feed grammar line h.edgeOpen).1
  rcases parse.feed_cases grammar line with ⟨hroot, -⟩ | ⟨start, growth, hne, hstart, hgrow, hroot⟩
  · refine ⟨hedge, ?_, ?_⟩
    · rw [hroot]
      exact h.symbol
    · rw [hroot]
      exact h.everywhere
  · obtain ⟨hedges, hsymbol, htree⟩ := h.getD hstart (parse.line + 1)
    have hall := proper_growAll (parse.line + 1) _ line hedges (htree.imp_left (⟨·, hne⟩))
      (by rw [hgrow])
    have hsame := symbol_growAll grammar (parse.line + 1)
      { tree := parse.root.getD (.branch start (parse.line + 1)) } line
    rw [hgrow] at hall hsame
    refine ⟨hedge, ?_, ?_⟩
    · rw [hroot]
      rintro root ⟨⟩
      rw [hsame, hsymbol, hstart]
    · rw [hroot]
      rintro root ⟨⟩
      exact hall

theorem proper_feedAll {grammar : Grammar} {parse : Parse} (h : parse.Proper grammar)
    (lines : List (List Token)) : (parse.feedAll grammar lines).1.Proper grammar :=
  feedAll_induction (motive := fun parse => parse.Proper grammar)
    (fun _ line hparse => proper_feed hparse line) h lines

theorem proper_fresh (grammar : Grammar) (line : Nat) : (⟨none, line⟩ : Parse).Proper grammar :=
  ⟨fun root h => by simp at h, fun root h => by simp at h, fun root h => by simp at h⟩

end Parse

end LineGrammar

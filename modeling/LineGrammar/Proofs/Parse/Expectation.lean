import LineGrammar.Proofs.Grammar.FollowSets
import LineGrammar.Proofs.Parse.Shape

/-!
# What a tree expects

The symbols that a tree is still to read, from left to right: at each node that can grow the rest of
an alternative that begins with what the node has read. A change of the node where the tree grows
changes the front of what is expected (`OpenAt.expects`), and closing finished nodes changes nothing
of it, since what is closed expects nothing (`expects_closeFinished`).
-/

namespace LineGrammar

namespace Tree

variable {grammar : Grammar} {tree : Tree} {form : List String}

mutual

/-- The tree is still to read these symbols. -/
def Expects (grammar : Grammar) : Tree → List String → Prop
  | ⟨symbol, _, completion, closed, _, children⟩, form =>
    (closed = true ∧ form = []) ∨
      (closed = false ∧ ∃ inner, ExpectsAll grammar children inner ∧
        ((completion = .complete ∧ form = inner) ∨
          (completion ≠ .complete ∧ ∃ unread,
            children.map (·.symbol) ++ unread ∈ grammar.alternatives symbol ∧
              form = inner ++ unread)))

def ExpectsAll (grammar : Grammar) : List Tree → List String → Prop
  | [], form => form = []
  | tree :: trees, form =>
    ∃ first rest, Expects grammar tree first ∧ ExpectsAll grammar trees rest ∧ form = first ++ rest

end

theorem expectsAll_append {trees others : List Tree} : ExpectsAll grammar (trees ++ others) form ↔
    ∃ first rest, ExpectsAll grammar trees first ∧ ExpectsAll grammar others rest ∧
      form = first ++ rest := by
  induction trees generalizing form with
  | nil => simp [ExpectsAll]
  | cons tree trees ih =>
    constructor
    · rintro ⟨first, _, hfirst, hall, rfl⟩
      obtain ⟨middle, rest, hmiddle, hrest, rfl⟩ := ih.mp hall
      exact ⟨first ++ middle, rest, ⟨first, middle, hfirst, hmiddle, rfl⟩, hrest,
        (List.append_assoc ..).symm⟩
    · rintro ⟨_, rest, ⟨first, middle, hfirst, hmiddle, rfl⟩, hrest, rfl⟩
      exact ⟨first, middle ++ rest, hfirst, ih.mpr ⟨middle, rest, hmiddle, hrest, rfl⟩,
        List.append_assoc ..⟩

theorem expects_of_closed (hclosed : tree.closed = true) : tree.Expects grammar [] := by
  obtain ⟨symbol, token, completion, closed, line, children⟩ := tree
  exact .inl ⟨hclosed, rfl⟩

theorem expects_iff_of_isOpen (hopen : tree.isOpen = true) : tree.Expects grammar form ↔
    ∃ inner unread, ExpectsAll grammar tree.children inner ∧
      tree.children.map (·.symbol) ++ unread ∈ grammar.alternatives tree.symbol ∧
      form = inner ++ unread := by
  obtain ⟨hclosed, hcompletion⟩ := closed_and_completion_of_isOpen tree hopen
  obtain ⟨symbol, token, completion, closed, line, children⟩ := tree
  dsimp only at hclosed hcompletion
  subst hclosed
  simp [Expects, hcompletion]

mutual

theorem expects_iff_of_settled {grammar : Grammar} :
    ∀ {tree : Tree} {form : List String}, tree.Settled → (tree.Expects grammar form ↔ form = [])
  | ⟨symbol, token, completion, closed, line, children⟩, form, h => by
    rcases h with rfl | ⟨rfl, hchildren⟩
    · simp [Expects]
    · have hall : ∀ inner, ExpectsAll grammar children inner ↔ inner = [] :=
        fun inner => expectsAll_iff_of_settledAll hchildren
      cases closed <;> simp [Expects, hall]

theorem expectsAll_iff_of_settledAll {grammar : Grammar} :
    ∀ {trees : List Tree} {form : List String},
      SettledAll trees → (ExpectsAll grammar trees form ↔ form = [])
  | [], form, _ => Iff.rfl
  | tree :: trees, form, h => by
    have hfirst : ∀ first, tree.Expects grammar first ↔ first = [] :=
      fun first => expects_iff_of_settled h.1
    have hrest : ∀ rest, ExpectsAll grammar trees rest ↔ rest = [] :=
      fun rest => expectsAll_iff_of_settledAll h.2
    simp [ExpectsAll, hfirst, hrest]

end

theorem expectsAll_iff_of_settled {before after : List Tree} (hbefore : SettledAll before)
    (hafter : SettledAll after) :
    ExpectsAll grammar (before ++ tree :: after) form ↔ tree.Expects grammar form := by
  have hfirst : ∀ first, ExpectsAll grammar before first ↔ first = [] :=
    fun first => expectsAll_iff_of_settledAll hbefore
  have hrest : ∀ rest, ExpectsAll grammar after rest ↔ rest = [] :=
    fun rest => expectsAll_iff_of_settledAll hafter
  simp [expectsAll_append, ExpectsAll, hfirst, hrest]

/-- What the tree expects at the node where it grows comes first. A change of the node changes that
and nothing else. -/
theorem OpenAt.expects {node : Tree} {path : Path} (h : OpenAt tree path node)
    (hexpects : tree.Expects grammar form) :
    ∃ inner outer, node.Expects grammar inner ∧ form = inner ++ outer ∧ (path = [] → outer = []) ∧
      ∀ change changed, (change node).symbol = node.symbol → (change node).Expects grammar changed →
        (tree.modifyAt change path).symbol = tree.symbol ∧
          (tree.modifyAt change path).Expects grammar (changed ++ outer) := by
  induction h generalizing form with
  | here =>
    refine ⟨form, [], hexpects, (List.append_nil form).symm, fun _ => rfl, ?_⟩
    intro change changed hsymbol hchange
    rw [modifyAt_nil, List.append_nil]
    exact ⟨hsymbol, hchange⟩
  | @under symbol token completion line before after child node path hbefore hchild hafter htokens
      ih =>
    obtain ⟨hclosed, -⟩ | ⟨-, first, hfirst, hform⟩ := hexpects
    · simp at hclosed
    rw [expectsAll_iff_of_settled hbefore hafter] at hfirst
    obtain ⟨inner, outer, hinner, rfl, -, hchange⟩ := ih hfirst
    obtain ⟨unread, rfl, hunread⟩ : ∃ unread, form = inner ++ (outer ++ unread) ∧
        ((completion = .complete ∧ unread = []) ∨ (completion ≠ .complete ∧
          (before ++ child :: after).map (·.symbol) ++ unread ∈ grammar.alternatives symbol)) := by
      rcases hform with ⟨hcomplete, rfl⟩ | ⟨hcompletion, unread, hmem, rfl⟩
      · exact ⟨[], by simp, .inl ⟨hcomplete, rfl⟩⟩
      · exact ⟨unread, List.append_assoc .., .inr ⟨hcompletion, hmem⟩⟩
    refine ⟨inner, outer ++ unread, hinner, rfl, by simp, ?_⟩
    intro change changed hsymbol hchanged
    obtain ⟨hsame, hbelow⟩ := hchange change changed hsymbol hchanged
    rw [OpenAt.modifyAt_under]
    refine ⟨rfl, .inr ⟨rfl, changed ++ outer, ?_, ?_⟩⟩
    · exact (expectsAll_iff_of_settled hbefore hafter).mpr hbelow
    · rw [← List.append_assoc]
      rcases hunread with ⟨hcomplete, rfl⟩ | ⟨hcompletion, hmem⟩
      · exact .inl ⟨hcomplete, List.append_nil _⟩
      · refine .inr ⟨hcompletion, unread, ?_, rfl⟩
        simpa [hsame] using hmem

end Tree

namespace Grammar

open LineGrammar.Tree

variable {grammar : Grammar}

/-! ## Closing finished nodes -/

theorem Frozen.finishes_blank (h : grammar.Frozen) (hempty : grammar.isTerminal emptyText = true)
    (node : Tree) {next : Tree} (hnext : next.symbol = emptyText) :
    grammar.finishes node (some next) = false := by
  unfold finishes
  split
  · next follow other hnonTerminal hfollow heq =>
    obtain rfl := Option.some.inj heq
    rw [hnext, firstOfSymbol, if_pos hempty, Bool.eq_false_iff]
    intro hmeets
    obtain ⟨symbol, hmember, hsingle⟩ := SymbolSet.meets_iff.mp hmeets
    obtain rfl := SymbolSet.mem_singleton.mp hsingle
    exact grammar.emptyText_not_mem_follow node.symbol
      (h.keptFollows_iff.mp ⟨_, hfollow, hmember⟩).2
  · rfl

theorem Frozen.settled_of_finishes (h : grammar.Frozen)
    (hempty : grammar.isTerminal emptyText = true) {node : Tree} {rest : List Tree}
    (hblank : node.Settled ∨ ∀ other ∈ rest, other.symbol = emptyText)
    (hfinishes : grammar.finishes node rest.head? = true) : node.Settled := by
  refine hblank.resolve_right fun hrest => ?_
  cases rest with
  | nil => simp [finishes] at hfinishes
  | cons next rest =>
    rw [List.head?_cons, h.finishes_blank hempty node (hrest next List.mem_cons_self)] at hfinishes
    simp at hfinishes

theorem Frozen.expectsAll_closeFinishedAll (h : grammar.Frozen)
    (hempty : grammar.isTerminal emptyText = true) {nodes : List Tree} {form : List String}
    (hblank : BlankBehind nodes) (hnodes : ∀ node ∈ nodes, ∀ form, node.Expects grammar form →
      (grammar.closeFinished node).Expects grammar form)
    (hexpects : ExpectsAll grammar nodes form) :
    ExpectsAll grammar (grammar.closeFinishedAll nodes) form := by
  induction nodes generalizing form with
  | nil => exact hexpects
  | cons node rest ih =>
    obtain ⟨hnode, hrest⟩ := List.forall_mem_cons.mp hnodes
    obtain ⟨first, last, hfirst, hlast, rfl⟩ := hexpects
    rw [closeFinishedAll]
    refine ⟨first, last, ?_, ih hblank.2 hrest hlast, rfl⟩
    split
    · exact hfirst
    · split
      · next hfinishes =>
        obtain rfl :=
          (expects_iff_of_settled (h.settled_of_finishes hempty hblank.1 hfinishes)).mp hfirst
        exact expects_of_closed node.closed_close
      · exact hnode first hfirst

/-- Closing finished nodes changes nothing of what is expected. -/
theorem Frozen.expects_closeFinished (h : grammar.Frozen)
    (hempty : grammar.isTerminal emptyText = true) {tree : Tree} {form : List String}
    (htree : tree.Everywhere grammar.Proper) (hexpects : tree.Expects grammar form) :
    (grammar.closeFinished tree).Expects grammar form := by
  induction htree generalizing form with
  | @intro tree hproper hchildren ih =>
    have hall : ∀ inner, ExpectsAll grammar tree.children inner →
        ExpectsAll grammar (grammar.closeFinishedAll tree.children) inner := fun inner =>
      h.expectsAll_closeFinishedAll hempty hproper.blankBehind fun node hnode form => ih node hnode
    have hsymbols := map_symbol_closeFinishedAll grammar tree.children
    rw [closeFinished_eq]
    obtain ⟨symbol, token, completion, closed, line, children⟩ := tree
    rcases hexpects with hclosed | ⟨hclosed, inner, hinner, hform⟩
    · exact .inl hclosed
    · refine .inr ⟨hclosed, inner, hall inner hinner, ?_⟩
      rwa [hsymbols]

end Grammar

end LineGrammar

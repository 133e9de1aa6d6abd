import LineGrammar.Proofs.Grammar.EndOfInput
import LineGrammar.Proofs.Grammar.FirstSets
import LineGrammar.Proofs.Parse.Prediction

/-!
# No sentence is refused

A tree awaits a word if the word is what is left of a sentence behind what the tree has read. Where
the next tokens begin that word, the tree grows at its last open node if that node is to read the
next terminal, and the node is marked complete if it is to be written as the empty text from there
on; in both cases the tree awaits what is left (`LL1.turn_cases`). So all tokens of a line are added
(`LL1.awaits_growAll`), and where the rules are LL(1), every line of a sentence fits, wherever the
lines end (`Parse.feedAll_eq`).
-/

namespace LineGrammar.Grammar

open LineGrammar.Tree

variable {grammar : Grammar} {line : Nat} {word later : List String} {next : String} {token : Token}
  {tokens others : List Token} {tree node : Tree} {path : Path}

theorem Opens.drop_drop (h : grammar.Opens tokens word) (count : Nat) :
    grammar.Opens (tokens.drop count) (word.drop count) := by
  obtain ⟨terminals, rest, rfl, hspells⟩ := h
  exact ⟨terminals.drop count, _, List.drop_append, List.forall₂_drop count hspells⟩

theorem Opens.of_append (h : grammar.Opens (tokens ++ others) word) : grammar.Opens tokens word := by
  obtain ⟨terminals, rest, rfl, hspells⟩ := h
  have hfirst := List.forall₂_take tokens.length hspells
  rw [List.take_left] at hfirst
  exact ⟨_, _, by rw [← List.append_assoc, List.take_append_drop], hfirst⟩

theorem drop_min_append (first later : List String) (count : Nat) :
    (first ++ later).drop (min first.length count) = first.drop count ++ later := by
  rw [List.drop_append]
  by_cases hle : count ≤ first.length
  · rw [Nat.min_eq_right hle, Nat.sub_eq_zero_of_le hle, List.drop_zero]
  · rw [Nat.min_eq_left (Nat.le_of_not_le hle), Nat.sub_self, List.drop_length, List.drop_zero,
      List.drop_eq_nil_of_le (Nat.le_of_not_le hle)]

/-- The word is what is left of a sentence behind what the tree has read. -/
def Awaits (grammar : Grammar) (tree : Tree) (word : List String) : Prop :=
  ∃ form, tree.Expects grammar form ∧ grammar.Stands form ∧ grammar.Yields form word

theorem Awaits.exists_unread (h : grammar.Awaits tree word) (hopen : OpenAt tree path node) :
    ∃ unread outer first later,
      node.children.map (·.symbol) ++ unread ∈ grammar.alternatives node.symbol ∧
      grammar.Yields unread first ∧ grammar.Yields outer later ∧ word = first ++ later ∧
      grammar.Stands (unread ++ outer) ∧ (path = [] → outer = []) ∧
      ∀ change changed, (change node).symbol = node.symbol → (change node).Expects grammar changed →
        (tree.modifyAt change path).Expects grammar (changed ++ outer) := by
  obtain ⟨form, hexpects, hstands, hyields⟩ := h
  obtain ⟨inner, outer, hinner, rfl, hroot, hchange⟩ := hopen.expects hexpects
  obtain ⟨_, unread, hbelow, hbody, rfl⟩ := (expects_iff_of_isOpen hopen.isOpen).mp hinner
  obtain rfl := (expectsAll_iff_of_settledAll hopen.settledAll_children).mp hbelow
  rw [List.nil_append] at hstands hyields
  obtain ⟨first, later, rfl, hfirst, hlater⟩ := Yields.append_iff.mp hyields
  exact ⟨unread, outer, first, later, hbody, hfirst, hlater, rfl, hstands, hroot,
    fun change changed hsymbol hexpects => (hchange change changed hsymbol hexpects).2⟩

theorem expects_markComplete (grammar : Grammar) (h : SettledAll node.children) :
    (Tree.markComplete node).Expects grammar [] := by
  refine (expects_iff_of_settled ?_).mpr rfl
  obtain ⟨symbol, mark, completion, closed, row, children⟩ := node
  exact .inr ⟨rfl, h⟩

theorem proper_of_openAt (hopen : OpenAt tree path node)
    (hproper : Fresh tree ∨ tree.Everywhere grammar.Proper) : Fresh node ∨ grammar.Proper node := by
  rcases hproper with hfresh | htree
  · rw [(eq_of_fresh hopen hfresh).2]
    exact .inl hfresh
  · exact .inr (htree.of_nodeAt? hopen.nodeAt?).here

theorem Proper.children_ne_nil (h : grammar.Proper node) (hopen : node.isOpen = true) :
    node.children ≠ [] := by
  intro hnil
  have hclosed := (closed_and_completion_of_isOpen node hopen).1
  obtain ⟨terminal, -, -, hbegins⟩ := (h.shaped.exists_alternative hclosed).2.2 hopen
  rw [hnil] at hbegins
  exact not_begins_nil hbegins

namespace LL1

variable (hll : grammar.LL1) (h : grammar.WellFormed) (hempty : grammar.isTerminal emptyText = true)
include hll h hempty

omit h hempty in
/-- An alternative that fits what a node has read is the one that it reads, if it goes on with the
same terminal. -/
theorem eq_of_begins {unread rest : List String} (hopen : node.isOpen = true)
    (hproper : Fresh node ∨ grammar.Proper node)
    (hbody : node.children.map (·.symbol) ++ unread ∈ grammar.alternatives node.symbol)
    (hother : node.children.map (·.symbol) ++ rest ∈ grammar.alternatives node.symbol)
    (hnext : grammar.isTerminal next = true) (hne : next ≠ emptyText)
    (hrest : Begins grammar.Writes rest next)
    (hunread : node.children = [] → Begins grammar.Writes unread next) : rest = unread := by
  rcases hproper with ⟨-, hchildren, -⟩ | hproper
  · rw [hchildren] at hbody hother
    exact hll.first_first _ rest unread next hother hbody hnext hne hrest (hunread hchildren)
  · have hclosed := (closed_and_completion_of_isOpen node hopen).1
    obtain ⟨first, hfirst, hfirstNe, hbegun⟩ :=
      (hproper.shaped.exists_alternative hclosed).2.2 hopen
    exact List.append_cancel_left (hll.first_first _ _ _ first hother hbody hfirst hfirstNe
      (begins_append.mpr (.inl hbegun)) (begins_append.mpr (.inl hbegun)))

theorem exists_readOn {unread behind first : List String} (hopen : node.isOpen = true)
    (hsettled : SettledAll node.children) (hproper : Fresh node ∨ grammar.Proper node)
    (hbody : node.children.map (·.symbol) ++ unread ∈ grammar.alternatives node.symbol)
    (hfirst : grammar.Yields unread first) (hne : first ≠ [])
    (hbehind : grammar.Yields behind later)
    (hopens : grammar.Opens (token :: tokens) (first ++ later))
    (hstands : grammar.Stands (unread ++ behind))
    (htokens : ∀ other ∈ token :: tokens, grammar.Unmistakable other) :
    ∃ extension,
      (grammar.readOn line node.symbol node.children (token :: tokens)).1 = some extension ∧
      extension.consumed = min first.length (token :: tokens).length ∧
      ∃ pending, grammar.ServesNode unread first (token :: tokens).length (extendBy extension node)
        pending := by
  have hread : ∃ inner,
      (grammar.readSequence line grammar.ruleKeys 0 (token :: tokens) unread).1 = some inner ∧
        grammar.Serves unread first (token :: tokens).length inner :=
    hll.serves_readSequence h hempty hfirst hbehind hopens hstands htokens
      fun next _ _ => grammar.admits_ruleKeys next unread
  obtain ⟨inner, hinner, hserves⟩ := hread
  have hpos : 0 < inner.consumed := by
    have := List.length_pos_iff.mpr hne
    rw [hserves.consumed, List.length_cons]
    omega
  obtain ⟨next, rest, heq, hspells, -⟩ := opens_cons_iff.mp hopens
  have hbegins : Begins grammar.Writes unread next := by
    obtain ⟨terminal, first, rfl⟩ := List.exists_cons_of_ne_nil hne
    obtain ⟨rfl, -⟩ := List.cons.inj heq
    exact ⟨first, hfirst.derives⟩
  have hunread : unread ≠ [] := by
    rintro rfl
    exact not_begins_nil hbegins
  have hchosen := choose_of_unique hbody hunread hinner ?_
  · obtain ⟨extension, hchoose, hnodes, hconsumed, hcompletion⟩ := hchosen
    have hreads := (reads_and_fitsReading grammar line).1 _ _ _ _ inner hinner
    rw [List.length_map] at hcompletion
    obtain ⟨pending, hnode⟩ := hserves.node hreads hsettled hbody hcompletion node.token node.line
    refine ⟨extension, hchoose, by rw [hconsumed, hserves.consumed], pending, ?_⟩
    rw [extendBy, hnodes]
    have hclosed := (closed_and_completion_of_isOpen node hopen).1
    rw [← hclosed] at hnode
    exact hnode
  · -- an alternative that takes a token goes on with the same terminal
    rintro alternative hmem ⟨rest, rfl⟩ stretch hstretch hmore
    rw [List.drop_left] at hstretch
    have hreads := (reads_and_fitsReading grammar line).1 _ _ _ _ stretch hstretch
    obtain ⟨terminal, hterminal, hrest, -⟩ := hreads.begins_or_vanishes.1 (by omega)
    obtain rfl := htokens token List.mem_cons_self terminal next hterminal hspells
    rw [hll.eq_of_begins hopen hproper hbody hmem hterminal.1 hterminal.2.1 hrest fun _ => hbegins]

theorem consumed_eq_zero {unread behind : List String} (hopen : node.isOpen = true)
    (hproper : grammar.Proper node) (hchildren : node.children ≠ [])
    (hbody : node.children.map (·.symbol) ++ unread ∈ grammar.alternatives node.symbol)
    (hnone : grammar.Yields unread []) (hbehind : grammar.Yields behind (next :: later))
    (hstands : grammar.Stands (unread ++ behind)) (hspells : grammar.Spells next token)
    (htoken : grammar.Unmistakable token) {extension : Extension}
    (hread : (grammar.readOn line node.symbol node.children (token :: tokens)).1 = some extension) :
    extension.consumed = 0 := by
  obtain ⟨alternative, hmem, stretch, ⟨rest, rfl⟩, -, hreads, -, hconsumed, -⟩ :=
    extends_of_readOn hread
  rw [List.drop_left] at hreads
  by_contra hsome
  obtain ⟨terminal, hterminal, hbegins, -⟩ := hreads.begins_or_vanishes.1 (by omega)
  obtain rfl := htoken terminal next hterminal hspells
  obtain rfl := hll.eq_of_begins hopen (.inr hproper) hbody hmem hterminal.1 hterminal.2.1 hbegins
    fun hfresh => absurd hfresh hchildren
  exact hll.not_begins h hempty hnone hbehind hstands hbegins

/-- One turn: the node that grows reads on, or it is marked complete and the next one is tried. -/
theorem turn_cases (line : Nat) (hopen : OpenAt tree path node)
    (hproper : Fresh tree ∨ tree.Everywhere grammar.Proper) (hawaits : grammar.Awaits tree word)
    (hopens : grammar.Opens (token :: tokens) word)
    (htokens : ∀ other ∈ token :: tokens, grammar.Unmistakable other) :
    (∃ extension,
      (grammar.readOn line node.symbol node.children (token :: tokens)).1 = some extension ∧
      0 < extension.consumed ∧ extension.consumed ≤ (token :: tokens).length ∧
      grammar.Awaits (tree.modifyAt (extendBy extension) path) (word.drop extension.consumed)) ∨
    (path ≠ [] ∧ (∀ extension,
      (grammar.readOn line node.symbol node.children (token :: tokens)).1 = some extension →
        extension.consumed = 0) ∧ grammar.Awaits (tree.modifyAt Tree.markComplete path) word) := by
  obtain ⟨unread, outer, first, later, hbody, hfirst, hlater, rfl, hstands, hroot, hchange⟩ :=
    hawaits.exists_unread hopen
  by_cases hne : first = []
  · -- the node is written as the empty text, and not the root, behind which nothing is awaited
    subst hne
    refine .inr ?_
    obtain ⟨next, rest, heq, hspells, -⟩ := opens_cons_iff.mp hopens
    rw [List.nil_append] at heq
    subst heq
    have hpath : path ≠ [] := by
      intro hnil
      obtain rfl := hroot hnil
      exact absurd hlater.eq_nil_of_nil (by simp)
    have htree : tree.Everywhere grammar.Proper :=
      hproper.resolve_left fun hfresh => hpath (eq_of_fresh hopen hfresh).1
    have hnode : grammar.Proper node := (htree.of_nodeAt? hopen.nodeAt?).here
    have hmarked := expects_markComplete grammar hopen.settledAll_children
    refine ⟨hpath, fun extension => ?_, outer, ?_, hstands.of_append, hlater⟩
    · exact hll.consumed_eq_zero h hempty hopen.isOpen hnode (hnode.children_ne_nil hopen.isOpen)
        hbody hfirst hlater hstands hspells (htokens token List.mem_cons_self)
    · exact hchange Tree.markComplete [] rfl hmarked
  · refine .inl ?_
    obtain ⟨extension, hread, hconsumed, pending, hserves⟩ := hll.exists_readOn h hempty hopen.isOpen
      hopen.settledAll_children (proper_of_openAt hopen hproper) hbody hfirst hne hlater hopens
      hstands htokens
    refine ⟨extension, hread, ?_, ?_, pending ++ outer, ?_, ?_, ?_⟩
    · have := List.length_pos_iff.mpr hne
      rw [hconsumed, List.length_cons]
      omega
    · rw [hconsumed]
      exact Nat.min_le_right _ _
    · exact hchange (extendBy extension) pending rfl hserves.expects
    · have hderives := hserves.derives.append_right outer
      rw [List.append_assoc] at hderives
      exact (hstands.derives hderives).of_append
    · have hrest := hserves.yields.append hlater
      rw [hconsumed, drop_min_append]
      exact hrest

theorem awaits_grow (furthest : Nat) (growth : Growth) (hedge : growth.tree.EdgeOpen)
    (hproper : Fresh growth.tree ∨ growth.tree.Everywhere grammar.Proper)
    (hawaits : grammar.Awaits growth.tree word) (hopens : grammar.Opens (token :: tokens) word)
    (htokens : ∀ other ∈ token :: tokens, grammar.Unmistakable other) :
    ∃ consumed, (grammar.grow line token tokens furthest growth).2 = .ok consumed ∧
      consumed ≤ (token :: tokens).length ∧
      grammar.Awaits (grammar.grow line token tokens furthest growth).1.tree
        (word.drop consumed) := by
  fun_induction grow grammar line token tokens furthest growth with
  | case1 furthest growth hpoint =>
    -- a settled tree awaits nothing
    obtain ⟨form, hexpects, -, hyields⟩ := hawaits
    obtain rfl := (expects_iff_of_settled (settled_of_growthPoint?_eq_none hpoint hedge)).mp hexpects
    obtain rfl := hyields.eq_nil_of_nil
    obtain ⟨next, rest, heq, -⟩ := opens_cons_iff.mp hopens
    simp at heq
  | case2 furthest growth path node hpoint found further hread extension hfilter =>
    have hopen := openAt_of_growthPoint? hpoint hedge
    obtain ⟨hfound, hpos⟩ := Option.filter_eq_some_iff.mp hfilter
    rcases hll.turn_cases h hempty line hopen hproper hawaits hopens htokens with
      ⟨other, hother, -, hle, hgrown⟩ | ⟨-, hnone, -⟩
    · rw [hread, hfound] at hother
      obtain rfl := Option.some.inj hother
      exact ⟨extension.consumed, rfl, hle, hgrown⟩
    · have hzero := hnone extension (by rw [hread, hfound])
      simp [hzero] at hpos
  | case3 furthest growth node found further hread _ hfilter hpoint =>
    have hopen := openAt_of_growthPoint? hpoint hedge
    rcases hll.turn_cases h hempty line hopen hproper hawaits hopens htokens with
      ⟨extension, hfound, hpos, -⟩ | ⟨hroot, -, -⟩
    · rw [hread] at hfound
      have hrefused := Option.filter_eq_none_iff.mp hfilter extension hfound
      simp [hpos] at hrefused
    · exact absurd rfl hroot
  | case4 furthest growth path node hpoint found further hread _ hfilter hpath ih =>
    have hopen := openAt_of_growthPoint? hpoint hedge
    rcases hll.turn_cases h hempty line hopen hproper hawaits hopens htokens with
      ⟨extension, hfound, hpos, -⟩ | ⟨-, -, hmarked⟩
    · rw [hread] at hfound
      have hrefused := Option.filter_eq_none_iff.mp hfilter extension hfound
      simp [hpos] at hrefused
    · have htree := hproper.resolve_left fun hfresh => hpath (eq_of_fresh hopen hfresh).1
      have hnode := proper_markComplete (closed_and_completion_of_isOpen _ hopen.isOpen).1
        (htree.of_nodeAt? hopen.nodeAt?)
      exact ih (hopen.growing (growing_markComplete hopen.settledAll_children)).edgeOpen
        (.inr (everywhere_modifyAt hopen htree hnode rfl rfl).1) hmarked

/-- Where the tokens begin the word that the tree awaits, all of them are added. -/
theorem awaits_growAll (hfrozen : grammar.Frozen) (growth : Growth) (tokens : List Token)
    (hedge : growth.tree.EdgeOpen)
    (hproper : Fresh growth.tree ∨ growth.tree.Everywhere grammar.Proper)
    (hawaits : grammar.Awaits growth.tree word) (hopens : grammar.Opens tokens word)
    (htokens : ∀ token ∈ tokens, grammar.Unmistakable token) :
    (grammar.growAll line growth tokens).2 = .ok () ∧
      grammar.Awaits (grammar.growAll line growth tokens).1.tree (word.drop tokens.length) := by
  fun_induction growAll grammar line growth tokens generalizing word with
  | case1 => exact ⟨rfl, by simpa using hawaits⟩
  | case2 growth token tokens grown error hgrow =>
    obtain ⟨consumed, hok, -⟩ :=
      hll.awaits_grow h hempty 0 growth hedge hproper hawaits hopens htokens
    rw [hgrow] at hok
    simp at hok
  | case3 growth token tokens grown consumed hgrow ih =>
    have hok : (grammar.grow line token tokens 0 growth).2 = .ok consumed := by rw [hgrow]
    obtain ⟨count, hcount, hle, hgrown⟩ :=
      hll.awaits_grow h hempty 0 growth hedge hproper hawaits hopens htokens
    obtain rfl : consumed = count := Except.ok.inj (hok.symm.trans hcount)
    have hturn := proper_grow token tokens 0 growth hedge hproper hok
    obtain ⟨hedges, hpos, -⟩ := tokens_grow grammar line token tokens 0 growth hedge hok
    rw [hgrow] at hgrown hturn hedges
    have hclosed : grammar.Awaits (grown.closeFinished grammar).tree (word.drop consumed) := by
      obtain ⟨form, hexpects, hrest⟩ := hgrown
      exact ⟨form, hfrozen.expects_closeFinished hempty hturn hexpects, hrest⟩
    have hdrop : (token :: tokens).drop consumed = tokens.drop (consumed - 1) := by
      obtain ⟨before, rfl⟩ : ∃ before, consumed = before + 1 := ⟨consumed - 1, by omega⟩
      rfl
    have hopensRest := hopens.drop_drop consumed
    rw [hdrop] at hopensRest
    obtain ⟨hall, hafter⟩ := ih (edgeOpen_closeFinished grammar hedges)
      (.inr (proper_closeFinished hturn)) hclosed hopensRest fun other hother =>
        htokens other (List.mem_cons_of_mem _ (List.mem_of_mem_drop hother))
    refine ⟨hall, ?_⟩
    rw [List.drop_drop, List.length_drop] at hafter
    rw [List.length_cons] at hle ⊢
    rwa [show consumed + (tokens.length - (consumed - 1)) = tokens.length + 1 by omega] at hafter

end LL1

/-! ## Line after line -/

theorem WellFormed.awaits_branch (h : grammar.WellFormed)
    (hempty : grammar.isTerminal emptyText = true) {start : String}
    (hstart : grammar.start? = some start) (hyields : grammar.Yields [start] word) (row : Nat) :
    grammar.Awaits (.branch start row) word := by
  have hnot : grammar.isTerminal start = false := by
    have hmem : start ∈ grammar.nonTerminals := List.mem_of_head? hstart
    cases hterminal : grammar.isTerminal start with
    | false => rfl
    | true => exact absurd hmem (h.not_mem_nonTerminals start (isTerminal_iff.mp hterminal))
  cases hyields with
  | empty => exact absurd (hempty.symm.trans hnot) (by simp)
  | terminal hterminal => exact absurd (hterminal.symm.trans hnot) (by simp)
  | @alternative _ body _ first _ hbody hfirst hrest =>
    obtain rfl := hrest.eq_nil_of_nil
    rw [List.append_nil]
    refine ⟨body, ?_, ⟨start, [], hstart, .of_writes (.inl hbody)⟩, hfirst⟩
    exact (expects_iff_of_isOpen rfl).mpr ⟨[], body, rfl, hbody, rfl⟩

end LineGrammar.Grammar

namespace LineGrammar.Parse

open LineGrammar.Grammar

variable {grammar : Grammar} {parse : Parse} {start : String} {word : List String}
  {line : List Token} {lines : List (List Token)}

/-- The word is what is left of a sentence behind what the parse has read. -/
def Awaits (grammar : Grammar) (parse : Parse) (start : String) (word : List String) : Prop :=
  ∀ row, grammar.Awaits (parse.root.getD (.branch start row)) word

section

variable (hll : grammar.LL1) (hfrozen : grammar.Frozen)
  (hempty : grammar.isTerminal emptyText = true) (hstart : grammar.start? = some start)
include hll hfrozen hempty hstart

theorem awaits_feed (hproper : parse.Proper grammar) (hawaits : parse.Awaits grammar start word)
    (hopens : grammar.Opens line word) (htokens : ∀ token ∈ line, grammar.Unmistakable token) :
    (∃ expected, (parse.feed grammar line).2 = .ok expected) ∧
      (parse.feed grammar line).1.Awaits grammar start (word.drop line.length) := by
  by_cases hline : line = []
  · subst hline
    exact ⟨⟨_, rfl⟩, hawaits⟩
  · obtain ⟨hedge, -, htree⟩ := hproper.getD hstart (parse.line + 1)
    obtain ⟨hok, hafter⟩ := hll.awaits_growAll hfrozen.wellFormed hempty hfrozen
      { tree := parse.root.getD (.branch start (parse.line + 1)) } line hedge htree
      (hawaits (parse.line + 1)) hopens htokens
    rcases hgrow : grammar.growAll (parse.line + 1)
        { tree := parse.root.getD (.branch start (parse.line + 1)) } line with ⟨growth, result⟩
    rw [hgrow] at hok hafter
    dsimp only at hok
    subst hok
    rw [feed, if_neg hline, hstart]
    dsimp only
    rw [hgrow]
    exact ⟨⟨_, rfl⟩, fun row => hafter⟩

theorem feedAll_eq_of_awaits (hproper : parse.Proper grammar)
    (hawaits : parse.Awaits grammar start word) (hopens : grammar.Opens lines.flatten word)
    (htokens : ∀ token ∈ lines.flatten, grammar.Unmistakable token) :
    (parse.feedAll grammar lines).2 = lines := by
  induction lines generalizing parse word with
  | nil => rfl
  | cons line lines ih =>
    rw [List.flatten_cons] at hopens htokens
    obtain ⟨hline, hlines⟩ := List.forall_mem_append.mp htokens
    obtain ⟨⟨expected, hok⟩, hafter⟩ :=
      awaits_feed hll hfrozen hempty hstart hproper hawaits hopens.of_append hline
    have hnext := proper_feed hproper line
    have hrest := hopens.drop_drop line.length
    rw [List.drop_left] at hrest
    rw [feedAll]
    rcases hfeed : parse.feed grammar line with ⟨fed, result⟩
    rw [hfeed] at hok hafter hnext
    dsimp only at hok
    subst hok
    dsimp only
    rw [ih hnext hafter hrest hlines]

end

/-- The tokens belong to the first terminals of a sentence, that is, of a word of terminals that the
start symbol derives. -/
def BeginsSentence (grammar : Grammar) (tokens : List Token) : Prop :=
  ∃ start word, grammar.start? = some start ∧ Derives grammar.Writes [start] word ∧
    (∀ terminal ∈ word, grammar.isTerminal terminal = true ∧ terminal ≠ emptyText) ∧
    grammar.Opens tokens word

/-- **No sentence is refused.** If the rules are LL(1) as they were written, and the start symbol
stands in none of them, all lines fit whose tokens, taken together, are the beginning of a sentence,
wherever the lines end. -/
theorem feedAll_eq {written : Grammar} (hfrozen : grammar.Frozen)
    (hwritten : grammar = written.freeze) (hempty : grammar.isTerminal emptyText = true)
    (hend : grammar.isTerminal endOfInput = true) (hll : written.LL1) (honce : written.StartsOnce)
    (htokens : ∀ token ∈ lines.flatten,
      ∃! terminal, grammar.isTerminal terminal = true ∧ grammar.accepts terminal token = true)
    (hsentence : BeginsSentence written lines.flatten) (row : Nat) :
    ((⟨none, row⟩ : Parse).feedAll grammar lines).2 = lines := by
  subst hwritten
  have h := hfrozen.wellFormed
  have hfreeze := hll.freeze h hempty hend honce
  obtain ⟨start, word, hstart, hderives, hword, terminals, rest, rfl, hspells⟩ := hsentence
  obtain ⟨after, hyields⟩ := exists_yields_freeze h hempty hend honce hstart hword hderives
  have hopens : written.freeze.Opens lines.flatten (terminals ++ rest ++ after) :=
    ⟨terminals, rest ++ after, List.append_assoc .., hspells⟩
  have hunmistakable : ∀ token ∈ lines.flatten, written.freeze.Unmistakable token := by
    intro token htoken terminal other hterminal hother
    exact (htokens token htoken).unique ⟨hterminal.1, hterminal.2.2⟩ ⟨hother.1, hother.2.2⟩
  have hawaits : (⟨none, row⟩ : Parse).Awaits written.freeze start (terminals ++ rest ++ after) :=
    fun line => h.awaits_branch hempty hstart hyields line
  exact feedAll_eq_of_awaits hfreeze hfrozen hempty hstart (proper_fresh _ row) hawaits hopens
    hunmistakable

def optionalLetterRules : Grammar where
  nonTerminals := ["S", "A"]
  terminals := ["a", "b", "$", "#"]
  rules := [("S", [["A", "b"]]), ("A", [["a"], ["#"]])]

theorem wellFormed_optionalLetterRules : optionalLetterRules.WellFormed :=
  ⟨by decide, by decide, by decide, by decide⟩

theorem ll1_optionalLetterRules : optionalLetterRules.LL1 := by
  have h := wellFormed_optionalLetterRules
  have hpairs : ∀ key body other, body ∈ optionalLetterRules.alternatives key →
      other ∈ optionalLetterRules.alternatives key → body = other ∨ key = "A" ∧
        (body = ["a"] ∧ other = ["#"] ∨ body = ["#"] ∧ other = ["a"]) := by
    intro key body other hbody hother
    obtain ⟨alternatives, hlookup, hbody⟩ := mem_alternatives_iff.mp hbody
    obtain ⟨others, hlookupOther, hother⟩ := mem_alternatives_iff.mp hother
    obtain rfl := Option.some.inj (hlookup.symm.trans hlookupOther)
    have hmem := mem_of_lookup hlookup
    simp only [optionalLetterRules, List.mem_cons, Prod.mk.injEq, List.not_mem_nil, or_false] at hmem
    rcases hmem with ⟨rfl, rfl⟩ | ⟨rfl, rfl⟩
    · simp_all
    · simp only [List.mem_cons, List.not_mem_nil, or_false] at hbody hother
      rcases hbody with rfl | rfl <;> rcases hother with rfl | rfl <;> simp
  have hletter : ¬Vanishes optionalLetterRules.Writes ["a"] :=
    h.not_vanishes_of_isTerminal rfl (by decide)
  have hnone : ∀ next, next ≠ emptyText → ¬Begins optionalLetterRules.Writes ["#"] next :=
    fun next => h.not_begins_emptyText rfl
  have hbegins : ∀ next, Begins optionalLetterRules.Writes ["a"] next → next = "a" := by
    intro next hbegins
    rcases begins_singleton.mp hbegins with rfl | ⟨body, hwrites, -⟩
    · rfl
    · exact absurd hwrites (h.not_writes rfl (by decide))
  have hfollows : ¬optionalLetterRules.Follows "A" "a" := by
    rintro (⟨behind, start, left, hstart, hderives⟩ | ⟨hend, -⟩)
    · obtain rfl : "S" = start := Option.some.inj hstart
      have hforms : left ++ "A" :: "a" :: behind ∈
          [["S"], ["A", "b"], ["a", "b"], ["#", "b"], ["b"]] :=
        mem_of_derives (by decide) hderives (by simp)
      simp [List.append_eq_cons_iff, List.cons_eq_append_iff] at hforms
    · exact absurd hend (by decide)
  refine ⟨?_, ?_, ?_⟩
  · intro key body other next hbody hother _ hne hfirst hsecond
    rcases hpairs key body other hbody hother with heq | ⟨-, ⟨-, rfl⟩ | ⟨rfl, -⟩⟩
    · exact heq
    · exact absurd hsecond (hnone next hne)
    · exact absurd hfirst (hnone next hne)
  · intro key body other hbody hother hvanishes hvanishesOther
    rcases hpairs key body other hbody hother with heq | ⟨-, ⟨rfl, -⟩ | ⟨-, rfl⟩⟩
    · exact heq
    · exact absurd hvanishes hletter
    · exact absurd hvanishesOther hletter
  · intro key body other next hbody hother _ hne hvanishes hsecond hfollowsKey
    rcases hpairs key body other hbody hother with heq | ⟨rfl, ⟨rfl, -⟩ | ⟨-, rfl⟩⟩
    · exact heq
    · exact absurd hvanishes hletter
    · obtain rfl := hbegins next hsecond
      exact absurd hfollowsKey hfollows

/-- The letter that may be left out ends one line, and the other letter is the next one. -/
theorem feedAll_eq_optionalLetter :
    optionalLetter.Frozen ∧ optionalLetterRules.LL1 ∧ optionalLetterRules.StartsOnce ∧
      BeginsSentence optionalLetterRules [wordTokens ["a"], wordTokens ["b"]].flatten ∧
      (({} : Parse).feedAll optionalLetter [wordTokens ["a"], wordTokens ["b"]]).2 =
        [wordTokens ["a"], wordTokens ["b"]] := by
  have honce : optionalLetterRules.StartsOnce := by
    intro start hstart key body hbody
    obtain rfl : "S" = start := Option.some.inj hstart
    obtain ⟨alternatives, hlookup, hbody⟩ := mem_alternatives_iff.mp hbody
    have hrules : ∀ rule ∈ optionalLetterRules.rules, ∀ alternative ∈ rule.2, "S" ∉ alternative := by
      decide
    exact hrules _ (mem_of_lookup hlookup) body hbody
  have htokens : ∀ token ∈ [wordTokens ["a"], wordTokens ["b"]].flatten, ∃! terminal,
      optionalLetter.isTerminal terminal = true ∧ optionalLetter.accepts terminal token = true := by
    have hletters : ∀ letter ∈ ["a", "b"], optionalLetter.isTerminal letter = true ∧
        optionalLetter.accepts letter ⟨.word letter, ⟨1, 0⟩⟩ = true ∧
        ∀ terminal ∈ optionalLetter.terminals,
          optionalLetter.accepts terminal ⟨.word letter, ⟨1, 0⟩⟩ = true → terminal = letter := by
      decide
    intro token htoken
    obtain ⟨letter, hletter, rfl⟩ : ∃ letter ∈ ["a", "b"], token = ⟨.word letter, ⟨1, 0⟩⟩ := by
      simpa [wordTokens] using htoken
    obtain ⟨hterminal, haccepts, hunique⟩ := hletters letter hletter
    exact ⟨letter, ⟨hterminal, haccepts⟩,
      fun terminal h => hunique terminal (isTerminal_iff.mp h.1) h.2⟩
  have hsentence : BeginsSentence optionalLetterRules
      [wordTokens ["a"], wordTokens ["b"]].flatten := by
    have hletters : ∀ letter ∈ ["a", "b"],
        optionalLetterRules.isTerminal letter = true ∧ letter ≠ emptyText := by decide
    have hstart : optionalLetterRules.Writes "S" ["A", "b"] := .inl (by decide)
    have hletter : optionalLetterRules.Writes "A" ["a"] := .inl (by decide)
    refine ⟨"S", ["a", "b"], rfl, ?_, hletters, ["a", "b"], [], rfl, ?_⟩
    · exact .cons hstart (.cons hletter (.refl ["a", "b"]))
    · exact .cons ⟨rfl, by decide, rfl⟩ (.cons ⟨rfl, by decide, rfl⟩ .nil)
  exact ⟨optionalLetter_frozen, ll1_optionalLetterRules, honce, hsentence,
    feedAll_eq optionalLetter_frozen rfl rfl rfl ll1_optionalLetterRules honce htokens hsentence 0⟩

end LineGrammar.Parse

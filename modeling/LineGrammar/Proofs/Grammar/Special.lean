import LineGrammar.Proofs.Grammar.Finishing
import LineGrammar.Proofs.Grammar.Operating

/-!
# Terminals with a meaning of their own

When the rules begin, the end of the input and the empty text are declared as terminals, unless
symbols of these names have been declared before. A symbol keeps the kind of the first group in which
it stands (`Draft.Grouped`), so that in the rules both are terminals exactly if neither stands among
the non-terminals (`Draft.keepsSpecial_iff`).
-/

namespace LineGrammar

namespace Grammar

variable {grammar : Grammar} {symbol : String} {names letters : List String}

theorem isTerminal_iff_kindOf? :
    grammar.isTerminal symbol = true ↔ grammar.kindOf? symbol = some .terminal := by
  unfold kindOf?
  split
  · next hterminal => simp [hterminal]
  · next hterminal => split <;> simp [hterminal]

theorem kindOf?_congr {other : Grammar} (hterminals : other.terminals = grammar.terminals)
    (hnonTerminals : other.nonTerminals = grammar.nonTerminals) (symbol : String) :
    other.kindOf? symbol = grammar.kindOf? symbol := by
  unfold kindOf? isTerminal isNonTerminal
  rw [hterminals, hnonTerminals]

/-- The kinds of symbols of which some are declared as non-terminals and then some as terminals. -/
def kindIn (names letters : List String) (symbol : String) : Option SymbolKind :=
  if symbol ∈ names then some .nonTerminal
  else if symbol ∈ letters then some .terminal
  else none

theorem kindOf?_declare_name (h : ∀ other, grammar.kindOf? other = kindIn names [] other)
    (name other : String) :
    (grammar.declare .nonTerminal name).kindOf? other = kindIn (names ++ [name]) [] other := by
  rw [kindOf?_declare, h]
  by_cases hnames : other ∈ names
  · simp [kindIn, hnames]
  · simp [kindIn, hnames]

theorem kindOf?_declare_letter (h : ∀ other, grammar.kindOf? other = kindIn names letters other)
    (letter other : String) :
    (grammar.declare .terminal letter).kindOf? other = kindIn names (letters ++ [letter]) other := by
  rw [kindOf?_declare, h]
  by_cases hnames : other ∈ names
  · simp [kindIn, hnames]
  · by_cases hletters : other ∈ letters
    · simp [kindIn, hnames, hletters]
    · simp [kindIn, hnames, hletters]

theorem kindOf?_withSpecial (h : ∀ other, grammar.kindOf? other = kindIn names letters other)
    (other : String) :
    grammar.withSpecial.kindOf? other = kindIn names (letters ++ [endOfInput, emptyText]) other := by
  have hend := kindOf?_declare_letter h endOfInput
  rw [withSpecial, kindOf?_declare_letter hend, List.append_assoc]
  rfl

end Grammar

namespace Draft

open Grammar

/-- The groups of symbols have ended: rules are read, or the text has ended. -/
def PastSymbols (draft : Draft) : Prop :=
  draft.stage ≠ .nonTerminals ∧ draft.stage ≠ .terminals

/-- The words begin with both groups of symbols, and these give the symbols of the grammar their
kinds. -/
def Grouped (markers : Markers) (words : List String) (grammar : Grammar) : Prop :=
  ∃ names letters rest, words = names ++ markers.endGroup :: (letters ++ markers.endGroup :: rest) ∧
    markers.endGroup ∉ names ∧ markers.endGroup ∉ letters ∧
    ∀ symbol, grammar.kindOf? symbol = kindIn names (letters ++ [endOfInput, emptyText]) symbol

variable {markers : Markers} {words : List String} {draft : Draft} {grammar : Grammar}
  {word : String}

/-- What the words that have been fed to a draft have made of it, in each of its stages. -/
inductive FedBy (markers : Markers) (words : List String) (draft : Draft) : Prop where
  | names (hmarkers : draft.markers = markers) (hstage : draft.stage = .nonTerminals)
      (hnone : markers.endGroup ∉ words)
      (hkinds : ∀ symbol, draft.grammar.kindOf? symbol = kindIn words [] symbol)
  | letters (hmarkers : draft.markers = markers) (hstage : draft.stage = .terminals)
      {names letters : List String} (hwords : words = names ++ markers.endGroup :: letters)
      (hnames : markers.endGroup ∉ names) (hletters : markers.endGroup ∉ letters)
      (hkinds : ∀ symbol, draft.grammar.kindOf? symbol = kindIn names letters symbol)
  | past (hmarkers : draft.markers = markers) (hpast : draft.PastSymbols)
      (hgrouped : Grouped markers words draft.grammar)
  /-- In a group of symbols, with no way on. -/
  | halted (hhalted : draft.isHalted = true) (hsymbols : ¬draft.PastSymbols)

theorem Grouped.concat (h : Grouped markers words grammar) {other : Grammar}
    (hterminals : other.terminals = grammar.terminals)
    (hnonTerminals : other.nonTerminals = grammar.nonTerminals) (word : String) :
    Grouped markers (words ++ [word]) other := by
  obtain ⟨names, letters, rest, rfl, hnames, hletters, hkinds⟩ := h
  refine ⟨names, letters, rest ++ [word], by simp, hnames, hletters, fun symbol => ?_⟩
  rw [kindOf?_congr hterminals hnonTerminals, hkinds]

theorem fedBy_reject (hsymbols : ¬draft.PastSymbols) (fault : SyntaxFault) :
    FedBy markers words (draft.reject fault).1 :=
  .halted ((halts_reject draft fault).resolve_left (by simp [reject])) hsymbols

theorem fedBy_feedName (hmarkers : draft.markers = markers) (hstage : draft.stage = .nonTerminals)
    (hnone : markers.endGroup ∉ words)
    (hkinds : ∀ symbol, draft.grammar.kindOf? symbol = kindIn words [] symbol)
    (hhalted : draft.isHalted = false) (word : String) :
    FedBy markers (words ++ [word]) (draft.feedWord word).1 := by
  subst hmarkers
  have hadvanced : draft.advance.stage = .nonTerminals := hstage
  by_cases hgrammar : word = draft.markers.endGrammar
  · rw [hgrammar, feedWord_endGrammar hhalted (by simp [hstage]), freeze, hadvanced]
    exact fedBy_reject (fun hpast => hpast.1 hadvanced) _
  · rw [feedWord_eq hhalted hgrammar, hstage]
    dsimp only
    split
    · next hgroup => exact .letters rfl rfl (by rw [hgroup]) hnone (by simp) hkinds
    · next hgroup =>
      unfold Draft.declare
      rw [hadvanced]
      exact .names rfl rfl (by simp [hnone, Ne.symm hgroup])
        (kindOf?_declare_name hkinds word)

theorem fedBy_feedLetter {names letters : List String} (hmarkers : draft.markers = markers)
    (hstage : draft.stage = .terminals) (hwords : words = names ++ markers.endGroup :: letters)
    (hnames : markers.endGroup ∉ names) (hletters : markers.endGroup ∉ letters)
    (hkinds : ∀ symbol, draft.grammar.kindOf? symbol = kindIn names letters symbol)
    (hhalted : draft.isHalted = false) (word : String) :
    FedBy markers (words ++ [word]) (draft.feedWord word).1 := by
  subst hmarkers hwords
  have hadvanced : draft.advance.stage = .terminals := hstage
  by_cases hgrammar : word = draft.markers.endGrammar
  · rw [hgrammar, feedWord_endGrammar hhalted (by simp [hstage]), freeze, hadvanced]
    exact fedBy_reject (fun hpast => hpast.2 hadvanced) _
  · rw [feedWord_eq hhalted hgrammar, hstage]
    dsimp only
    split
    · next hgroup =>
      unfold enterRules
      split
      · exact fedBy_reject (fun hpast => hpast.2 hadvanced) _
      · refine .past rfl ⟨by simp [ok], by simp [ok]⟩ ?_
        exact ⟨names, letters, [], by simp [hgroup], hnames, hletters, kindOf?_withSpecial hkinds⟩
    · next hgroup =>
      unfold Draft.declare
      rw [hadvanced]
      exact .letters rfl rfl (by simp) hnames (by simp [hletters, Ne.symm hgroup])
        (kindOf?_declare_letter hkinds word)

theorem fedBy_feedRule (hmarkers : draft.markers = markers) (hpast : draft.PastSymbols)
    (hgrouped : Grouped markers words draft.grammar) (hhalted : draft.isHalted = false)
    (word : String) : FedBy markers (words ++ [word]) (draft.feedWord word).1 := by
  subst hmarkers
  cases hstage : draft.stage with
  | nonTerminals => exact absurd hstage hpast.1
  | terminals => exact absurd hstage hpast.2
  | finished =>
    have hnext : draft.feedWord word = (draft.advance, .ok ()) := by
      rw [feedWord, if_neg (by simp [hhalted])]
      exact if_pos hstage
    rw [hnext]
    exact .past rfl hpast (hgrouped.concat rfl rfl word)
  | rules phase =>
    have hadvanced : draft.advance.stage = .rules phase := hstage
    by_cases hgrammar : word = draft.markers.endGrammar
    · rw [hgrammar, feedWord_endGrammar hhalted (by simp [hstage]), freeze, hadvanced]
      cases phase with
      | expectKey =>
        dsimp only [ok]
        rw [(recordRuleless_eq _).1]
        exact .past rfl ⟨by simp, by simp⟩ (hgrouped.concat rfl rfl _)
      | expectSeparator | inBody => exact .past rfl hpast (hgrouped.concat rfl rfl _)
    · rw [feedWord_eq hhalted hgrammar, hstage]
      obtain ⟨⟨next, hnext⟩, hmarkers, hterminals, hnonTerminals⟩ :=
        inRules_feedRuleWord draft.advance word hstage
      exact .past hmarkers ⟨by simp [hnext], by simp [hnext]⟩
        (hgrouped.concat hterminals hnonTerminals word)

theorem fedBy_feedWord (h : FedBy markers words draft) (word : String) :
    FedBy markers (words ++ [word]) (draft.feedWord word).1 := by
  cases hhalted : draft.isHalted with
  | true =>
    have hsame : draft.feedWord word = (draft, .error .halted) := if_pos hhalted
    rw [hsame]
    by_cases hpast : draft.PastSymbols
    · cases h with
      | names _ hstage => exact absurd hstage hpast.1
      | letters _ hstage => exact absurd hstage hpast.2
      | past hmarkers _ hgrouped => exact .past hmarkers hpast (hgrouped.concat rfl rfl word)
      | halted _ hsymbols => exact absurd hpast hsymbols
    · exact .halted hhalted hpast
  | false =>
    cases h with
    | names hmarkers hstage hnone hkinds =>
      exact fedBy_feedName hmarkers hstage hnone hkinds hhalted word
    | letters hmarkers hstage hwords hnames hletters hkinds =>
      exact fedBy_feedLetter hmarkers hstage hwords hnames hletters hkinds hhalted word
    | past hmarkers hpast hgrouped => exact fedBy_feedRule hmarkers hpast hgrouped hhalted word
    | halted hstopped => simp [hhalted] at hstopped

/-- The draft that words lead to which are fed one by one. -/
def ofWords (markers : Markers) (words : List String) : Draft :=
  run markers (words.map .feedWord)

theorem fedBy_ofWords (markers : Markers) (words : List String) :
    FedBy markers words (ofWords markers words) := by
  induction words using List.reverseRecOn with
  | nil => exact .names rfl rfl (by simp) fun _ => rfl
  | append_singleton words word ih =>
    rw [ofWords, List.map_append, run, performAll_append]
    exact fedBy_feedWord ih word

theorem FedBy.grouped (h : FedBy markers words draft) (hpast : draft.PastSymbols) :
    Grouped markers words draft.grammar := by
  cases h with
  | names _ hstage => exact absurd hstage hpast.1
  | letters _ hstage => exact absurd hstage hpast.2
  | past _ _ hgrouped => exact hgrouped
  | halted _ hsymbols => exact absurd hpast hsymbols

theorem isTerminal_of_kindIn {names letters : List String} {special : String}
    (hkinds : ∀ symbol,
      grammar.kindOf? symbol = kindIn names (letters ++ [endOfInput, emptyText]) symbol)
    (hspecial : special ∈ [endOfInput, emptyText]) :
    grammar.isTerminal special = true ↔ special ∉ names := by
  rw [isTerminal_iff_kindOf?, hkinds, kindIn, if_pos (List.mem_append_right letters hspecial)]
  split
  · next hname => simp [hname]
  · next hname => simp [hname]

/-- The words of the first group. -/
def namesOf (markers : Markers) (words : List String) : List String :=
  words.takeWhile (· ≠ markers.endGroup)

/-- The words of the second group. -/
def lettersOf (markers : Markers) (words : List String) : List String :=
  (words.drop ((namesOf markers words).length + 1)).takeWhile (· ≠ markers.endGroup)

theorem Grouped.kindOf?_eq (h : Grouped markers words grammar) (symbol : String) :
    grammar.kindOf? symbol =
      kindIn (namesOf markers words) (lettersOf markers words ++ [endOfInput, emptyText]) symbol := by
  obtain ⟨names, letters, rest, rfl, hnames, hletters, hkinds⟩ := h
  have hfirst : namesOf markers (names ++ markers.endGroup ::
      (letters ++ markers.endGroup :: rest)) = names := takeWhile_ne_append hnames
  have hbehind : (names ++ markers.endGroup :: (letters ++ markers.endGroup :: rest)).drop
      (names.length + 1) = letters ++ markers.endGroup :: rest := by
    rw [← List.drop_drop, List.drop_left, List.drop_succ_cons, List.drop_zero]
  rw [lettersOf, hfirst, hbehind, takeWhile_ne_append hletters, hkinds]

/-- Once there are rules, the end of the input and the empty text are terminals, and no symbol that
has been declared in a group is taken for one of them. Symbols are told apart by their names. -/
structure KeepsSpecial (markers : Markers) (words : List String) : Prop where
  isTerminal : (ofWords markers words).PastSymbols → ∀ special ∈ [endOfInput, emptyText],
    (ofWords markers words).grammar.isTerminal special = true
  apart : (ofWords markers words).PastSymbols →
    ∀ symbol ∈ namesOf markers words ++ lettersOf markers words,
      symbol ∉ [endOfInput, emptyText]

/-- **What the special terminals are.** Once there are rules, each symbol has the kind of the first
group in which it stands, where the end of the input and the empty text stand behind the second
group. So these two are terminals exactly if neither is among the non-terminals, and they are no
declared symbols either exactly if neither is in any group. -/
theorem keepsSpecial_iff (markers : Markers) (words : List String) :
    ((ofWords markers words).PastSymbols → ∀ symbol,
      (ofWords markers words).grammar.kindOf? symbol = kindIn (namesOf markers words)
        (lettersOf markers words ++ [endOfInput, emptyText]) symbol) ∧
    ((ofWords markers words).PastSymbols → ∀ special ∈ [endOfInput, emptyText],
      ((ofWords markers words).grammar.isTerminal special = true ↔
        special ∉ namesOf markers words)) ∧
    (KeepsSpecial markers words ↔ ((ofWords markers words).PastSymbols →
      ∀ special ∈ [endOfInput, emptyText],
        special ∉ namesOf markers words ++ lettersOf markers words)) := by
  have hkinds := fun hpast => ((fedBy_ofWords markers words).grouped hpast).kindOf?_eq
  refine ⟨hkinds, fun hpast _ => isTerminal_of_kindIn (hkinds hpast), fun hkeeps hpast => ?_,
    fun hnone => ⟨fun hpast special hspecial => ?_, fun hpast => ?_⟩⟩
  · exact fun special hspecial hmem => hkeeps.apart hpast special hmem hspecial
  · refine (isTerminal_of_kindIn (hkinds hpast) hspecial).mpr ?_
    exact mt (List.mem_append_left _) (hnone hpast special hspecial)
  · exact fun symbol hmem hspecial => hnone hpast symbol hspecial hmem

/-- The end of the input is declared as a non-terminal, and stays one. -/
theorem not_keepsSpecial_endOfInput :
    ¬KeepsSpecial {} ["S", "$", "#", "a", "#", "S", "->", "a", "#", "##"] := by
  intro hkeeps
  have hpast : (ofWords {} ["S", "$", "#", "a", "#", "S", "->", "a", "#", "##"]).PastSymbols :=
    ⟨by decide, by decide⟩
  exact absurd (hkeeps.isTerminal hpast endOfInput (by simp)) (by decide)

end Draft

end LineGrammar

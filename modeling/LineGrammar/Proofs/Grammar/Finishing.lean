import LineGrammar.Proofs.Grammar.Format
import LineGrammar.Proofs.Session.Acting

/-!
# Reading grammar texts to their end

The words of a grammar text lead a new draft to its end, with the grammar that is written and what is
wrong with it (`Draft.exists_outcome`), and words that lead to the end are those of a grammar text
(`Draft.exists_text`). A draft that refuses a word has halted, so that words may be fed one by one,
as one text or as lines (`Draft.fedAlike`). Together: words are read to the end exactly if they are
those of a grammar text, and their grammar is the one that it describes (`Draft.finishes_iff`).
-/

namespace LineGrammar.Draft

/-! ## From stage to stage -/

/-- The draft can be read on, in this stage, with this grammar and these faults. -/
structure Stands (markers : Markers) (stage : DraftStage) (grammar : Grammar)
    (faults : List GrammarFault) (draft : Draft) : Prop where
  notHalted : draft.isHalted = false
  markers : draft.markers = markers
  stage : draft.stage = stage
  grammar : draft.grammar = grammar
  faults : draft.faults = faults

/-- From a stage with a grammar and faults the words lead on to another. -/
def Takes (markers : Markers) (stage : DraftStage) (grammar : Grammar)
    (faults : List GrammarFault) (words : List String) (next : DraftStage) (result : Grammar)
    (noted : List GrammarFault) : Prop :=
  ∀ draft : Draft, Stands markers stage grammar faults draft →
    ∃ after, draft.feedWords words = (after, .ok ()) ∧ Stands markers next result noted after

section

variable {markers : Markers} {stage next : DraftStage} {grammar result : Grammar}
  {faults noted : List GrammarFault} {word key : String} {words : List String}

theorem takes_nil : Takes markers stage grammar faults [] stage grammar faults :=
  fun draft h => ⟨draft, rfl, h⟩

theorem Takes.append {last : DraftStage} {others : List String} {final : Grammar}
    {all : List GrammarFault} (h : Takes markers stage grammar faults words next result noted)
    (hothers : Takes markers next result noted others last final all) :
    Takes markers stage grammar faults (words ++ others) last final all := by
  intro draft hdraft
  obtain ⟨middle, hmiddle, hstands⟩ := h draft hdraft
  obtain ⟨after, hafter, hlast⟩ := hothers middle hstands
  exact ⟨after, feedWords_append.mpr ⟨middle, hmiddle, hafter⟩, hlast⟩

theorem Takes.cons {last : DraftStage} {final : Grammar} {all : List GrammarFault}
    (h : Takes markers stage grammar faults [word] next result noted)
    (hwords : Takes markers next result noted words last final all) :
    Takes markers stage grammar faults (word :: words) last final all :=
  h.append hwords

theorem takes_single (h : ∀ draft : Draft, Stands markers stage grammar faults draft →
      ∃ after, draft.feedWord word = (after, .ok ()) ∧ Stands markers next result noted after) :
    Takes markers stage grammar faults [word] next result noted := by
  intro draft hdraft
  obtain ⟨after, hafter, hstands⟩ := h draft hdraft
  exact ⟨after, feedWords_cons.mpr ⟨after, hafter, rfl⟩, hstands⟩

/-! ### The symbols -/

theorem takes_symbol (kind : SymbolKind) (hgroup : word ≠ markers.endGroup)
    (hgrammar : word ≠ markers.endGrammar) :
    Takes markers (stageOf kind) grammar faults [word] (stageOf kind) (grammar.declare kind word)
      faults := by
  refine takes_single fun draft hdraft => ?_
  obtain ⟨hhalted, rfl, hstage, rfl, rfl⟩ := hdraft
  refine ⟨{ draft.advance with
    grammar := draft.grammar.declare kind word, stage := stageOf kind },
    ?_, hhalted, rfl, rfl, rfl, rfl⟩
  rw [feedWord_eq hhalted hgrammar, hstage]
  cases kind with
  | terminal | nonTerminal =>
    refine (if_neg hgroup).trans ?_
    unfold Draft.declare
    rw [show draft.advance.stage = _ from hstage]
    rfl

theorem takes_symbols (kind : SymbolKind) (grammar : Grammar)
    (hwords : ∀ word ∈ words, word ≠ markers.endGroup ∧ word ≠ markers.endGrammar) :
    Takes markers (stageOf kind) grammar faults words (stageOf kind)
      (Grammar.declareAll kind grammar words) faults := by
  induction words generalizing grammar with
  | nil => exact takes_nil
  | cons word words ih =>
    obtain ⟨hword, hrest⟩ := List.forall_mem_cons.mp hwords
    exact (takes_symbol kind hword.1 hword.2).cons (ih _ hrest)

theorem takes_endNonTerminals (hne : markers.endGroup ≠ markers.endGrammar) :
    Takes markers .nonTerminals grammar faults [markers.endGroup] .terminals grammar faults := by
  refine takes_single fun draft hdraft => ?_
  obtain ⟨hhalted, rfl, hstage, rfl, rfl⟩ := hdraft
  rw [feedWord_eq hhalted hne, hstage]
  exact ⟨_, if_pos rfl, hhalted, rfl, rfl, rfl, rfl⟩

theorem enterRules_eq_ok (draft : Draft) (hletters : draft.grammar.terminals ≠ [])
    (hnames : draft.grammar.nonTerminals ≠ []) :
    draft.enterRules =
      ok { draft with grammar := draft.grammar.withSpecial, stage := .rules .expectKey } :=
  if_neg (not_or.mpr ⟨hletters, hnames⟩)

theorem takes_endTerminals (hne : markers.endGroup ≠ markers.endGrammar)
    (hletters : grammar.terminals ≠ []) (hnames : grammar.nonTerminals ≠ []) :
    Takes markers .terminals grammar faults [markers.endGroup] (.rules .expectKey)
      grammar.withSpecial faults := by
  refine takes_single fun draft hdraft => ?_
  obtain ⟨hhalted, rfl, hstage, rfl, rfl⟩ := hdraft
  rw [feedWord_eq hhalted hne, hstage]
  refine ⟨{ draft.advance with
    grammar := draft.grammar.withSpecial, stage := .rules .expectKey },
    ?_, hhalted, rfl, rfl, rfl, rfl⟩
  exact (if_pos rfl).trans (enterRules_eq_ok draft.advance hletters hnames)

/-! ### The rules -/

theorem takes_blank (hne : markers.endGroup ≠ markers.endGrammar) :
    Takes markers (.rules .expectKey) grammar faults [markers.endGroup] (.rules .expectKey) grammar
      faults := by
  refine takes_single fun draft hdraft => ?_
  obtain ⟨hhalted, rfl, hstage, rfl, rfl⟩ := hdraft
  rw [feedWord_eq hhalted hne, hstage]
  refine ⟨draft.advance, ?_, hhalted, rfl, hstage, rfl, rfl⟩
  simp [feedRuleWord, advance, ok]

theorem takes_key (hkey : key ∉ markers.words) :
    Takes markers (.rules .expectKey) grammar faults [key] (.rules (.expectSeparator key)) grammar
      faults := by
  simp only [Markers.words, List.mem_cons, List.not_mem_nil, or_false, not_or] at hkey
  refine takes_single fun draft hdraft => ?_
  obtain ⟨hhalted, rfl, hstage, rfl, rfl⟩ := hdraft
  rw [feedWord_eq hhalted hkey.2.1, hstage]
  refine ⟨{ draft.advance with stage := .rules (.expectSeparator key) },
    ?_, hhalted, rfl, rfl, rfl, rfl⟩
  simp [feedRuleWord, advance, ok, hkey]

/-- The key under which the body of a rule is read: none if it takes no rules. -/
def bodyKey (grammar : Grammar) (key : String) : Option String :=
  if grammar.kindOf? key = some .nonTerminal then some key else none

/-- The faults with what is wrong about a key. -/
def noteKey (kinds : String → Option SymbolKind) (faults : List GrammarFault) (key : String) :
    List GrammarFault :=
  match kinds key with
  | some .nonTerminal => faults
  | some .terminal => GrammarFault.record .fixed faults
  | none => GrammarFault.record .undeclared faults

/-- The faults with what is wrong about a symbol of a body. -/
def noteSymbol (kinds : String → Option SymbolKind) (faults : List GrammarFault)
    (symbol : String) : List GrammarFault :=
  if (kinds symbol).isSome then faults else GrammarFault.record .undeclared faults

/-- The faults with what is wrong about a rule. -/
def noteItem (kinds : String → Option SymbolKind) (faults : List GrammarFault) :
    RuleItem → List GrammarFault
  | .blank => faults
  | .rule key body => body.foldl (noteSymbol kinds) (noteKey kinds faults key)

theorem takes_separator (hne : markers.separator ≠ markers.endGrammar) :
    Takes markers (.rules (.expectSeparator key)) grammar faults [markers.separator]
      (.rules (.inBody (bodyKey grammar key) [])) grammar (noteKey grammar.kindOf? faults key) := by
  refine takes_single fun draft hdraft => ?_
  obtain ⟨hhalted, rfl, hstage, rfl, rfl⟩ := hdraft
  rw [feedWord_eq hhalted hne, hstage]
  have hbegin : ∀ kind, draft.grammar.kindOf? key = kind → ∃ after,
      draft.advance.beginRule key = (after, .ok ()) ∧ Stands draft.markers
        (.rules (.inBody (bodyKey draft.grammar key) [])) draft.grammar
          (noteKey draft.grammar.kindOf? draft.faults key) after := by
    intro kind hkind
    have hadvanced : draft.advance.grammar.kindOf? key = kind := hkind
    unfold beginRule
    rw [show draft.advance.stage = _ from hstage]
    dsimp only
    rw [hadvanced]
    rcases kind with - | - | -
    · exact ⟨_, rfl, (isHalted_record rfl).trans hhalted, rfl, by simp [bodyKey, hkind], rfl,
        by rw [noteKey, hkind]; rfl⟩
    · exact ⟨_, rfl, (isHalted_record rfl).trans hhalted, rfl, by simp [bodyKey, hkind], rfl,
        by rw [noteKey, hkind]; rfl⟩
    · exact ⟨_, rfl, hhalted, rfl, by simp [bodyKey, hkind], rfl, by rw [noteKey, hkind]; rfl⟩
  obtain ⟨after, hafter, hstands⟩ := hbegin _ rfl
  refine ⟨after, ?_, hstands⟩
  simpa [feedRuleWord, advance] using hafter

theorem takes_bodySymbol {key : Option String} {body : List String} (hword : word ∉ markers.words) :
    Takes markers (.rules (.inBody key body)) grammar faults [word]
      (.rules (.inBody key (body ++ [word]))) grammar (noteSymbol grammar.kindOf? faults word) := by
  simp only [Markers.words, List.mem_cons, List.not_mem_nil, or_false, not_or] at hword
  refine takes_single fun draft hdraft => ?_
  obtain ⟨hhalted, rfl, hstage, rfl, rfl⟩ := hdraft
  rw [feedWord_eq hhalted hword.2.1, hstage]
  have happend : ∃ after, draft.advance.appendSymbol word = (after, .ok ()) ∧
      Stands draft.markers (.rules (.inBody key (body ++ [word]))) draft.grammar
        (noteSymbol draft.grammar.kindOf? draft.faults word) after := by
    unfold appendSymbol
    rw [show draft.advance.stage = _ from hstage]
    dsimp only
    split
    · next hknown => exact ⟨_, rfl, hhalted, rfl, rfl, rfl, (if_pos hknown).symm⟩
    · next hunknown =>
      exact ⟨_, rfl, (isHalted_record rfl).trans hhalted, rfl, rfl, rfl, (if_neg hunknown).symm⟩
  obtain ⟨after, hafter, hstands⟩ := happend
  refine ⟨after, ?_, hstands⟩
  simpa [feedRuleWord, advance, hword] using hafter

theorem takes_bodySymbols {key : Option String} {body : List String}
    (hwords : ∀ word ∈ words, word ∉ markers.words) :
    Takes markers (.rules (.inBody key body)) grammar faults words
      (.rules (.inBody key (body ++ words))) grammar
        (words.foldl (noteSymbol grammar.kindOf?) faults) := by
  induction words generalizing body faults with
  | nil =>
    rw [List.append_nil]
    exact takes_nil
  | cons word words ih =>
    obtain ⟨hword, hrest⟩ := List.forall_mem_cons.mp hwords
    have hothers : Takes markers (.rules (.inBody key (body ++ [word]))) grammar
        (noteSymbol grammar.kindOf? faults word) words
        (.rules (.inBody key (body ++ [word] ++ words))) grammar _ := ih hrest
    rw [List.append_assoc] at hothers
    exact (takes_bodySymbol hword).cons hothers

theorem takes_endRule (hne : markers.endGroup ≠ markers.endGrammar) {body : List String} :
    Takes markers (.rules (.inBody (bodyKey grammar key) body)) grammar faults [markers.endGroup]
      (.rules .expectKey) (grammar.addItem (.rule key body)) faults := by
  refine takes_single fun draft hdraft => ?_
  obtain ⟨hhalted, rfl, hstage, rfl, rfl⟩ := hdraft
  rw [feedWord_eq hhalted hne, hstage]
  have hend : Stands draft.markers (.rules .expectKey) (draft.grammar.addItem (.rule key body))
      draft.faults draft.advance.endRule := by
    unfold endRule
    rw [show draft.advance.stage = _ from hstage]
    simp only [Grammar.addItem, bodyKey]
    by_cases hkind : draft.grammar.kindOf? key = some .nonTerminal
    · rw [if_pos hkind, if_pos hkind]
      exact ⟨hhalted, rfl, rfl, rfl, rfl⟩
    · rw [if_neg hkind, if_neg hkind]
      exact ⟨hhalted, rfl, rfl, rfl, rfl⟩
  refine ⟨draft.advance.endRule, ?_, hend⟩
  simp [feedRuleWord, advance, ok]

theorem takes_item {item : RuleItem} (h : item.Plain markers)
    (hends : markers.endGrammar ∉ item.words markers) :
    Takes markers (.rules .expectKey) grammar faults (item.words markers) (.rules .expectKey)
      (grammar.addItem item) (noteItem grammar.kindOf? faults item) := by
  cases item with
  | blank =>
    exact takes_blank fun heq => hends (heq ▸ List.mem_singleton_self _)
  | rule key body =>
    simp only [RuleItem.words, List.mem_cons, List.mem_append, List.not_mem_nil, or_false,
      not_or] at hends
    obtain ⟨hkey, hbody⟩ := List.forall_mem_cons.mp h
    exact (takes_key hkey).cons ((takes_separator (Ne.symm hends.2.1)).cons
      ((takes_bodySymbols hbody).append (takes_endRule (Ne.symm hends.2.2.2))))

theorem takes_items (grammar : Grammar) (faults : List GrammarFault) {items : List RuleItem}
    (h : ∀ item ∈ items, item.Plain markers)
    (hends : ∀ item ∈ items, markers.endGrammar ∉ item.words markers) :
    Takes markers (.rules .expectKey) grammar faults (items.flatMap (RuleItem.words markers))
      (.rules .expectKey) (items.foldl Grammar.addItem grammar)
        (items.foldl (noteItem grammar.kindOf?) faults) := by
  induction items generalizing grammar faults with
  | nil => exact takes_nil
  | cons item items ih =>
    obtain ⟨hitem, hrest⟩ := List.forall_mem_cons.mp h
    obtain ⟨hitemEnds, hrestEnds⟩ := List.forall_mem_cons.mp hends
    have hothers := ih (grammar.addItem item) (noteItem grammar.kindOf? faults item) hrest hrestEnds
    rw [Grammar.kindOf?_addItem] at hothers
    rw [List.flatMap_cons]
    exact (takes_item hitem hitemEnds).append hothers

/-! ### The text -/

theorem takes_symbolGroups {names letters : List String}
    (hne : markers.endGroup ≠ markers.endGrammar) (hnames : names ≠ [])
    (hletter : ∃ letter ∈ letters, letter ∉ names)
    (hwords : ∀ word ∈ names ++ letters, word ≠ markers.endGroup ∧ word ≠ markers.endGrammar) :
    Takes markers .nonTerminals {} faults
      (names ++ markers.endGroup :: (letters ++ [markers.endGroup])) (.rules .expectKey)
      (Grammar.declareAll .terminal
        (Grammar.declareAll .nonTerminal {} names) letters).withSpecial faults := by
  obtain ⟨hnonTerminals, hnone⟩ := Grammar.declareAll_nonTerminal names
  obtain ⟨hterminals, hsame⟩ := Grammar.declareAll_terminal hnone letters
  rw [hnonTerminals] at hterminals hsame
  refine (takes_symbols .nonTerminal {} fun word hword => hwords word
    (List.mem_append_left _ hword)).append ((takes_endNonTerminals hne).cons
      ((takes_symbols .terminal _ fun word hword => hwords word
        (List.mem_append_right _ hword)).append (takes_endTerminals hne ?_ ?_)))
  · obtain ⟨letter, hmem, hnew⟩ := hletter
    rw [hterminals]
    refine List.ne_nil_of_mem (a := letter)
      (List.mem_eraseDups.mpr (List.mem_filter.mpr ⟨hmem, ?_⟩))
    simpa using hnew
  · obtain ⟨name, others, rfl⟩ := List.exists_cons_of_ne_nil hnames
    rw [hsame, List.eraseDups_cons]
    exact List.cons_ne_nil _ _

/-- The words of a grammar text lead to its end, where the end does not stand inside of the text.
The grammar is frozen there, and what is wrong with it has been recorded. -/
theorem exists_outcome {text : GrammarText} (h : text.Proper markers)
    (hne : markers.endGroup ≠ markers.endGrammar)
    (hends : ∀ item ∈ text.items, markers.endGrammar ∉ item.words markers) :
    ∃ outcome, ({ markers } : Draft).feedWords (text.words markers) = (outcome, .ok ()) ∧
      outcome.grammar? = .ok (Grammar.ofText text).freeze ∧
      ∀ fault, fault ∈ outcome.faults ↔
        fault ∈ text.items.foldl (noteItem (Grammar.ofText text).kindOf?) [] ∨
          (Grammar.ofText text).freeze.LacksRules fault := by
  obtain ⟨ended, hended, hhalted, hsame, hstage, hgrammar, hfaults⟩ :=
    (takes_symbolGroups hne h.names_ne_nil h.exists_letter h.not_marker).append
      (takes_items _ _ h.plain hends) { markers } ⟨rfl, rfl, rfl, rfl, rfl⟩
  have hkinds : (Grammar.ofText text).kindOf? = (Grammar.declareAll .terminal
      (Grammar.declareAll .nonTerminal {} text.names) text.letters).withSpecial.kindOf? :=
    Grammar.kindOf?_foldl_addItem _ _
  obtain ⟨outcome, houtcome, hfrozen, hall⟩ := feedWords_end hsame hhalted hstage text.rest
  rw [hgrammar] at hfrozen hall
  rw [hfaults, ← hkinds] at hall
  refine ⟨outcome, ?_, hfrozen, hall⟩
  have hwords : text.words markers = text.names ++ markers.endGroup ::
      (text.letters ++ [markers.endGroup]) ++ text.items.flatMap (RuleItem.words markers) ++
        markers.endGrammar :: text.rest := by
    simp [GrammarText.words]
  rw [hwords]
  exact feedWords_append.mpr ⟨ended, hended, houtcome⟩

theorem endGrammar_not_mem_words (hgroup : markers.endGroup ≠ markers.endGrammar)
    (hseparator : markers.separator ≠ markers.endGrammar) {item : RuleItem}
    (h : item.Plain markers) : markers.endGrammar ∉ item.words markers := by
  cases item with
  | blank => simpa [RuleItem.words] using Ne.symm hgroup
  | rule key body =>
    have hplain : markers.endGrammar ∉ key :: body :=
      fun hmem => h _ hmem (by simp [Markers.words])
    simp only [List.mem_cons, not_or] at hplain
    simp [RuleItem.words, hplain, Ne.symm hgroup, Ne.symm hseparator]

theorem grammar?_feedWords {text : GrammarText} (hmarkers : markers.words.Nodup)
    (h : text.Proper markers) :
    ∃ outcome, ({ markers } : Draft).feedWords (text.words markers) = (outcome, .ok ()) ∧
      outcome.grammar? = .ok (Grammar.ofText text).freeze := by
  have hgroup : markers.endGroup ≠ markers.endGrammar := by
    rintro heq
    simp [Markers.words, heq] at hmarkers
  have hseparator : markers.separator ≠ markers.endGrammar := by
    rintro heq
    simp [Markers.words, heq] at hmarkers
  obtain ⟨outcome, houtcome, hgrammar, -⟩ := exists_outcome h hgroup
    fun item hitem => endGrammar_not_mem_words hgroup hseparator (h.plain item hitem)
  exact ⟨outcome, houtcome, hgrammar⟩

end

/-! ## From the end back -/

section

variable {markers : Markers} {draft next outcome : Draft} {word : String} {words : List String}

/-- What stands in the rules from a place in one of them on. -/
def Completes (markers : Markers) (words : List String) : RulePhase → Prop
  | .expectKey => ∃ items : List RuleItem, (∀ item ∈ items, item.Plain markers) ∧
      words = items.flatMap (RuleItem.words markers)
  | .expectSeparator _ => ∃ body, (∀ word ∈ body, word ∉ markers.words) ∧
      ∃ items : List RuleItem, (∀ item ∈ items, item.Plain markers) ∧
        words = markers.separator ::
          (body ++ markers.endGroup :: items.flatMap (RuleItem.words markers))
  | .inBody _ _ => ∃ body, (∀ word ∈ body, word ∉ markers.words) ∧
      ∃ items : List RuleItem, (∀ item ∈ items, item.Plain markers) ∧
        words = body ++ markers.endGroup :: items.flatMap (RuleItem.words markers)

theorem stage_beginRule {key : String} {phase : RulePhase} (hstage : draft.stage = .rules phase)
    (h : draft.beginRule key = (next, .ok ())) : ∃ kept, next.stage = .rules (.inBody kept []) := by
  unfold beginRule at h
  rw [hstage] at h
  dsimp only at h
  split at h <;> obtain ⟨rfl, -⟩ := Prod.mk.inj h <;> exact ⟨_, rfl⟩

theorem stage_appendSymbol {key : Option String} {body : List String}
    (hstage : draft.stage = .rules (.inBody key body))
    (h : draft.appendSymbol word = (next, .ok ())) :
    next.stage = .rules (.inBody key (body ++ [word])) := by
  unfold appendSymbol at h
  rw [hstage] at h
  obtain ⟨rfl, -⟩ := Prod.mk.inj h
  rfl

theorem stage_endRule {phase : RulePhase} (hstage : draft.stage = .rules phase) :
    draft.endRule.stage = .rules .expectKey := by
  unfold endRule
  rw [hstage]
  cases phase with
  | expectKey | expectSeparator => rfl
  | inBody key body => cases key <;> rfl

theorem completes_of_feedWords {phase : RulePhase} (hmarkers : draft.markers = markers)
    (hstage : draft.stage = .rules phase) (hend : markers.endGrammar ∉ words)
    (h : draft.feedWords words = (outcome, .ok ())) (houtcome : outcome.stage = .rules .expectKey) :
    Completes markers words phase := by
  induction words generalizing draft phase with
  | nil =>
    obtain ⟨rfl, -⟩ := Prod.mk.inj h
    obtain rfl : phase = .expectKey := by simpa [hstage] using houtcome
    exact ⟨[], by simp, rfl⟩
  | cons word words ih =>
    subst hmarkers
    obtain ⟨hword, hrest⟩ := not_or.mp (mt List.mem_cons.mpr hend)
    obtain ⟨next, hnext, hwords⟩ := feedWords_cons.mp h
    have hsame := markers_feedWord (Ne.symm hword) hnext
    have hread : draft.advance.feedRuleWord word phase = (next, .ok ()) := by
      rw [feedWord_eq (isHalted_of_feedWord hnext) (Ne.symm hword), hstage] at hnext
      exact hnext
    have hadvanced : draft.advance.stage = .rules phase := hstage
    have hadvancedMarkers : draft.advance.markers = draft.markers := rfl
    have hplain (hgroup : word ≠ draft.markers.endGroup)
        (hseparator : word ≠ draft.markers.separator) : word ∉ draft.markers.words := by
      simp [Markers.words, hgroup, Ne.symm hword, hseparator]
    unfold feedRuleWord at hread
    simp only [beq_iff_eq, hadvancedMarkers] at hread
    cases phase with
    | expectKey =>
      dsimp only at hread
      split_ifs at hread with hgroup hseparator
      · obtain ⟨rfl, -⟩ := Prod.mk.inj hread
        obtain ⟨items, hitems, rfl⟩ := ih hsame hadvanced hrest hwords
        exact ⟨.blank :: items, List.forall_mem_cons.mpr ⟨trivial, hitems⟩, by rw [hgroup]; rfl⟩
      · cases (Prod.mk.inj hread).2
      · obtain ⟨rfl, -⟩ := Prod.mk.inj hread
        obtain ⟨body, hbody, items, hitems, rfl⟩ := ih hsame rfl hrest hwords
        refine ⟨.rule word body :: items, List.forall_mem_cons.mpr
          ⟨List.forall_mem_cons.mpr ⟨hplain hgroup hseparator, hbody⟩, hitems⟩, ?_⟩
        simp [RuleItem.words]
    | expectSeparator key =>
      dsimp only at hread
      split_ifs at hread with hseparator
      · obtain ⟨kept, hkept⟩ := stage_beginRule hadvanced hread
        obtain ⟨body, hbody, items, hitems, rfl⟩ := ih hsame hkept hrest hwords
        exact ⟨body, hbody, items, hitems, by rw [hseparator]⟩
      · cases (Prod.mk.inj hread).2
    | inBody key body =>
      dsimp only at hread
      split_ifs at hread with hgroup hseparator
      · obtain ⟨rfl, -⟩ := Prod.mk.inj hread
        obtain ⟨items, hitems, rfl⟩ := ih hsame (stage_endRule hadvanced) hrest hwords
        exact ⟨[], by simp, items, hitems, by rw [hgroup]; rfl⟩
      · cases (Prod.mk.inj hread).2
      · obtain ⟨later, hlater, items, hitems, rfl⟩ :=
          ih hsame (stage_appendSymbol hadvanced hread) hrest hwords
        exact ⟨word :: later, List.forall_mem_cons.mpr ⟨hplain hgroup hseparator, hlater⟩, items,
          hitems, rfl⟩

theorem symbols_of_enter {names letters : List String}
    (hne : markers.endGroup ≠ markers.endGrammar)
    (hwords : ∀ word ∈ names ++ letters, word ≠ markers.endGroup ∧ word ≠ markers.endGrammar)
    (h : ({ markers } : Draft).feedWords
      (names ++ markers.endGroup :: (letters ++ [markers.endGroup])) = (outcome, .ok ())) :
    names ≠ [] ∧ ∃ letter ∈ letters, letter ∉ names := by
  obtain ⟨hnonTerminals, hnone⟩ := Grammar.declareAll_nonTerminal names
  obtain ⟨hterminals, hsame⟩ := Grammar.declareAll_terminal hnone letters
  rw [hnonTerminals] at hterminals hsame
  obtain ⟨lettered, hlettered, hhalted, hmarkers, hstage, hgrammar, -⟩ :=
    (takes_symbols .nonTerminal {} fun word hword => hwords word
      (List.mem_append_left _ hword)).append ((takes_endNonTerminals hne).cons
        (takes_symbols .terminal _ fun word hword => hwords word
          (List.mem_append_right _ hword))) { markers } ⟨rfl, rfl, rfl, rfl, rfl⟩
  -- the last word enters the rules
  have hsplit : names ++ markers.endGroup :: (letters ++ [markers.endGroup]) =
      names ++ markers.endGroup :: letters ++ [markers.endGroup] := by simp
  rw [hsplit] at h
  obtain ⟨middle, hmiddle, hlast⟩ := feedWords_append.mp h
  rw [hlettered] at hmiddle
  obtain ⟨rfl, -⟩ := Prod.mk.inj hmiddle
  obtain ⟨after, hafter, -⟩ := feedWords_cons.mp hlast
  subst hmarkers
  rw [feedWord_eq hhalted hne, hstage] at hafter
  have hentered : lettered.advance.enterRules = (after, .ok ()) := (if_pos rfl).symm.trans hafter
  have hboth : ¬(lettered.grammar.terminals = [] ∨ lettered.grammar.nonTerminals = []) := by
    intro hmissing
    have hrefused : lettered.advance.enterRules = lettered.advance.reject .nothingDeclared :=
      if_pos hmissing
    rw [hrefused] at hentered
    cases (Prod.mk.inj hentered).2
  rw [hgrammar, hterminals, hsame, not_or] at hboth
  constructor
  · rintro rfl
    exact hboth.2 rfl
  · obtain ⟨letter, hletter⟩ := List.exists_mem_of_ne_nil _ hboth.1
    obtain ⟨hmem, hnew⟩ := List.mem_filter.mp (List.mem_eraseDups.mp hletter)
    exact ⟨letter, hmem, by simpa using hnew⟩

/-- Words that lead to the end are those of a grammar text. -/
theorem exists_text (h : ({ markers } : Draft).feedWords words = (outcome, .ok ()))
    (hfinished : outcome.stage = .finished) :
    ∃ text : GrammarText, text.Proper markers ∧ words = text.words markers := by
  obtain ⟨parts⟩ := exists_parts h hfinished
  have hwords : ∀ word ∈ parts.names ++ parts.letters,
      word ≠ markers.endGroup ∧ word ≠ markers.endGrammar := by
    intro word hword
    constructor
    · rintro rfl
      exact parts.endGroup_not_mem hword
    · rintro rfl
      exact parts.endGrammar_not_mem (List.mem_append_left _ hword)
  obtain ⟨hnames, hletter⟩ := symbols_of_enter parts.endGroup_ne hwords parts.enter
  obtain ⟨items, hitems, hrules⟩ := completes_of_feedWords parts.markers_eq parts.stage
    (fun hmem => parts.endGrammar_not_mem (List.mem_append_right _ hmem)) parts.read parts.expects
  refine ⟨⟨parts.names, parts.letters, items, parts.rest⟩, ⟨hnames, hletter, hwords, hitems⟩, ?_⟩
  rw [GrammarText.words, ← hrules]
  exact parts.words_eq

end

/-! ## Ways to feed words -/

/-- Reads words one by one, also behind one that is refused, with what each of them comes to. -/
def feedEach (draft : Draft) : List String → Draft × List (Except GrammarError Unit)
  | [] => (draft, [])
  | word :: words =>
    let (next, result) := draft.feedWord word
    let (last, results) := next.feedEach words
    (last, result :: results)

/-- The ways to feed the words to a new draft come to the same: one by one, as one text, and as the
lines of a text. Such texts are the words with any blanks between them. -/
structure FedAlike (markers : Markers) (words : List String) : Prop where
  each : (({ markers } : Draft).feedEach words).1 = (({ markers } : Draft).feedWords words).1 ∧
    (({ markers } : Draft).feedEach words).2.forM id = (({ markers } : Draft).feedWords words).2
  text : ∀ text, wordsOf text = words →
    ({ markers } : Draft).feedText text = ({ markers } : Draft).feedWords words
  lines : ∀ text, wordsOf text = words → ∀ settings : Settings, settings.markers = markers →
    (Session.loadGrammar text).run.run (.ofSettings settings) =
      ((({ markers } : Draft).feedWords words).2.mapError SessionError.grammar,
        { Session.ofSettings settings with draft := (({ markers } : Draft).feedWords words).1 })
  spelled : ∀ gap : List Char, gap ≠ [] → (∀ c ∈ gap, Text.isBlank c = true) →
    wordsOf (String.ofList (gap.intercalate (words.map String.toList))) = words

section

variable {draft next : Draft} {word : String} {words : List String} {error : GrammarError}

/-- The outcome is a success, or the draft has halted. -/
def Outcome.Halts (outcome : Outcome) : Prop :=
  outcome.2 = .ok () ∨ outcome.1.isHalted = true

theorem halts_reject (draft : Draft) (fault : SyntaxFault) : (draft.reject fault).Halts := by
  refine .inr ?_
  unfold reject record isHalted GrammarFault.record
  split
  · next hmem => exact List.any_eq_true.mpr ⟨_, hmem, rfl⟩
  · rfl

theorem halts_declare (draft : Draft) (kind : SymbolKind) (symbol : String) :
    (draft.declare kind symbol).Halts := by
  unfold Draft.declare
  split
  · exact .inl rfl
  · exact .inl rfl
  · exact halts_reject _ _

theorem halts_enterRules (draft : Draft) : draft.enterRules.Halts := by
  unfold enterRules
  split
  · exact halts_reject _ _
  · exact .inl rfl

theorem halts_beginRule (draft : Draft) (key : String) : (draft.beginRule key).Halts := by
  unfold beginRule
  split
  · split <;> exact .inl rfl
  · exact halts_reject _ _

theorem halts_appendSymbol (draft : Draft) (symbol : String) :
    (draft.appendSymbol symbol).Halts := by
  unfold appendSymbol
  split
  · exact .inl rfl
  · exact halts_reject _ _

theorem halts_feedRuleWord (draft : Draft) (word : String) (phase : RulePhase) :
    (draft.feedRuleWord word phase).Halts := by
  unfold feedRuleWord
  dsimp only
  split
  · split_ifs
    · exact .inl rfl
    · exact halts_reject _ _
    · exact .inl rfl
  · split_ifs
    · exact halts_beginRule _ _
    · exact halts_reject _ _
  · split_ifs
    · exact .inl rfl
    · exact halts_reject _ _
    · exact halts_appendSymbol _ _

theorem halts_freeze (hstage : draft.stage ≠ .finished) : draft.freeze.Halts := by
  unfold freeze
  split
  · next hfinished => exact absurd hfinished hstage
  · exact .inl rfl
  · exact halts_reject _ _
  · exact halts_reject _ _

theorem halts_feedWord (draft : Draft) (word : String) : (draft.feedWord word).Halts := by
  unfold feedWord
  split
  · next hhalted => exact .inr hhalted
  · dsimp only
    split
    · exact .inl rfl
    · next hfinished =>
      split
      · exact halts_freeze hfinished
      · split
        · split
          · exact .inl rfl
          · exact halts_declare _ _ _
        · split
          · exact halts_enterRules _
          · exact halts_declare _ _ _
        · exact halts_feedRuleWord _ _ _
        · exact .inl rfl

theorem feedEach_of_isHalted (hhalted : draft.isHalted = true) (words : List String) :
    (draft.feedEach words).1 = draft := by
  induction words with
  | nil => rfl
  | cons word words ih =>
    have hword : draft.feedWord word = (draft, .error .halted) := if_pos hhalted
    rw [feedEach, hword]
    exact ih

theorem feedEach_eq (draft : Draft) (words : List String) :
    (draft.feedEach words).1 = (draft.feedWords words).1 ∧
      (draft.feedEach words).2.forM id = (draft.feedWords words).2 := by
  induction words generalizing draft with
  | nil => exact ⟨rfl, rfl⟩
  | cons word words ih =>
    have hhalts := halts_feedWord draft word
    rw [feedEach, feedWords]
    generalize draft.feedWord word = outcome at hhalts ⊢
    obtain ⟨next, error | ⟨⟩⟩ := outcome
    · obtain hok | hhalted := hhalts
      · cases hok
      · exact ⟨feedEach_of_isHalted hhalted words, rfl⟩
    · exact ih next

theorem fedAlike (markers : Markers) (hwords : ∀ word ∈ words, Text.IsWord word.toList) :
    FedAlike markers words where
  each := feedEach_eq _ words
  text text htext := by rw [feedText, htext]
  lines text htext settings hsettings := by
    subst hsettings
    rw [← htext]
    exact Session.run_loadGrammar _ _
  spelled gap hne hgap := by
    have hlist : ∀ word ∈ words.map String.toList, Text.IsWord word := by
      intro word hword
      obtain ⟨text, htext, rfl⟩ := List.mem_map.mp hword
      exact hwords text htext
    rw [wordsOf, String.toList_ofList, Text.words_intercalate hne hgap hlist, List.map_map]
    exact List.map_id'' (fun word => String.ofList_toList) words

end

/-- Words are read to the end, in whatever way they are fed, exactly if they are those of a grammar
text; and then they give the grammar that the text describes. -/
theorem finishes_iff {markers : Markers} (hmarkers : markers.words.Nodup) {words : List String}
    (hwords : ∀ word ∈ words, Text.IsWord word.toList) :
    FedAlike markers words ∧
      ((({ markers } : Draft).feedWords words).2 = .ok () ∧
          (({ markers } : Draft).feedWords words).1.isFinished = true ↔
        ∃ text : GrammarText, text.Proper markers ∧ words = text.words markers) ∧
      ∀ text : GrammarText, text.Proper markers → words = text.words markers →
        ∃ grammar, (({ markers } : Draft).feedWords words).1.grammar? = .ok grammar ∧
          text.Describes grammar := by
  refine ⟨fedAlike markers hwords, ⟨fun ⟨hok, hfinished⟩ => ?_, ?_⟩, ?_⟩
  · have hstage : (({ markers } : Draft).feedWords words).1.stage = .finished := by
      simp only [isFinished, Bool.and_eq_true, beq_iff_eq] at hfinished
      exact hfinished.1
    exact exists_text (Prod.ext rfl hok) hstage
  · rintro ⟨text, hproper, rfl⟩
    obtain ⟨outcome, houtcome, hgrammar⟩ := grammar?_feedWords hmarkers hproper
    rw [houtcome]
    refine ⟨rfl, ?_⟩
    have hstage := stage_of_grammar? hgrammar
    unfold grammar? at hgrammar
    split_ifs at hgrammar with hhalted
    simp [isFinished, hstage, hhalted]
  · rintro text hproper rfl
    obtain ⟨outcome, houtcome, hgrammar⟩ := grammar?_feedWords hmarkers hproper
    rw [houtcome]
    exact ⟨_, hgrammar, Grammar.describes_ofText text⟩

/-- Repeated names, a letter that is a name and one that is the end of the input, an empty body, and
rules of symbols that take none. -/
def mixedText : GrammarText where
  names := ["S", "A", "S"]
  letters := ["a", "A", "$", "a"]
  items := [.blank, .rule "S" ["a", "A", "$"], .rule "a" ["A"], .rule "A" [], .rule "S" ["A"],
    .rule "Z" ["a"]]
  rest := ["->", "##"]

theorem finishes_iff_mixedText :
    ({} : Markers).words.Nodup ∧ (∀ word ∈ mixedText.words {}, Text.IsWord word.toList) ∧
    ((({} : Draft).feedWords (mixedText.words {})).2 = .ok () ∧
      (({} : Draft).feedWords (mixedText.words {})).1.isFinished = true) ∧
    ∃ grammar, (({} : Draft).feedWords (mixedText.words {})).1.grammar? = .ok grammar ∧
      grammar.nonTerminals = ["S", "A"] ∧ grammar.terminals = ["a", "$", "#"] ∧
      grammar.alternatives "S" = [["a", "A", "$"], ["A", "$"]] ∧
      grammar.alternatives "A" = [["#"]] ∧ grammar.alternatives "Z" = [] := by
  have hmarkers : ({} : Markers).words.Nodup := by decide
  have hwords : ∀ word ∈ mixedText.words {}, Text.IsWord word.toList := by decide +kernel
  have hproper : mixedText.Proper {} := ⟨by decide, by decide, by decide, by decide⟩
  obtain ⟨-, hends, hdescribes⟩ := finishes_iff hmarkers hwords
  obtain ⟨grammar, hgrammar, hnames, hletters, halternatives⟩ := hdescribes mixedText hproper rfl
  refine ⟨hmarkers, hwords, hends.mpr ⟨mixedText, hproper, rfl⟩, grammar, hgrammar, hnames.trans ?_,
    hletters.trans ?_, (halternatives _).trans ?_, (halternatives _).trans ?_,
    (halternatives _).trans ?_⟩ <;> decide +kernel

end LineGrammar.Draft

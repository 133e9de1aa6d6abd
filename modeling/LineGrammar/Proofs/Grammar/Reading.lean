import LineGrammar.Proofs.Grammar.Freezing

/-!
# Reading grammar texts

A text that is read to its end has an end of the non-terminals, one of the terminals, one of the
rules, and whatever is behind it is passed over (`Draft.exists_parts`). Its grammar is what has been
written before the end, frozen (`Draft.Parts.grammar?_eq`).
-/

namespace LineGrammar

namespace Grammar

variable {grammar : Grammar} {symbol : String}

theorem isSome_kindOf?_of_mem (h : symbol ∈ grammar.nonTerminals) :
    (grammar.kindOf? symbol).isSome = true := by
  rw [← Option.ne_none_iff_isSome]
  exact fun hnone => (kindOf?_eq_none.mp hnone).2 h

theorem rules_declare (grammar : Grammar) (kind : SymbolKind) (symbol : String) :
    (grammar.declare kind symbol).rules = grammar.rules := by
  unfold declare
  split
  · rfl
  · cases kind <;> rfl

theorem kindOf?_declare (grammar : Grammar) (kind : SymbolKind) (symbol other : String) :
    (grammar.declare kind symbol).kindOf? other =
      (grammar.kindOf? other).or (if other = symbol then some kind else none) := by
  unfold declare
  split
  · next hknown =>
    by_cases hother : other = symbol
    · obtain ⟨known, hkind⟩ := Option.isSome_iff_exists.mp hknown
      rw [hother, hkind, Option.some_or]
    · rw [if_neg hother, Option.or_none]
  · next hunknown =>
    obtain ⟨hterminal, hnonTerminal⟩ := kindOf?_eq_none.mp (by simpa using hunknown)
    by_cases hother : other = symbol
    · subst hother
      cases kind <;> simp [kindOf?, isTerminal, isNonTerminal, hterminal, hnonTerminal]
    · cases kind <;> simp [kindOf?, isTerminal, isNonTerminal, hother]

theorem mem_nonTerminals_declare {kind : SymbolKind} {other : String}
    (h : other ∈ (grammar.declare kind symbol).nonTerminals) :
    other ∈ grammar.nonTerminals ∨ other = symbol := by
  unfold declare at h
  split at h
  · exact .inl h
  · cases kind with
    | terminal => exact .inl h
    | nonTerminal => simpa using h

theorem nonTerminals_declare_terminal (grammar : Grammar) (symbol : String) :
    (grammar.declare .terminal symbol).nonTerminals = grammar.nonTerminals := by
  unfold declare
  split <;> rfl

theorem mem_declare_terminal (grammar : Grammar) (symbol : String) :
    symbol ∈ (grammar.declare .terminal symbol).terminals ∨ symbol ∈ grammar.nonTerminals := by
  unfold declare
  split
  · next hknown =>
    by_cases hterminal : symbol ∈ grammar.terminals
    · exact .inl hterminal
    · refine .inr (Classical.byContradiction fun hnonTerminal => ?_)
      rw [kindOf?_eq_none.mpr ⟨hterminal, hnonTerminal⟩] at hknown
      cases hknown
  · exact .inl (by simp)

theorem terminals_subset_declare (grammar : Grammar) (symbol : String) :
    grammar.terminals ⊆ (grammar.declare .terminal symbol).terminals := by
  unfold declare
  split
  · exact List.Subset.refl _
  · exact List.subset_append_left _ _

/-- What the non-terminals without rules are. -/
def LacksRules (grammar : Grammar) : GrammarFault → Prop
  | .ruleless => ∃ symbol ∈ grammar.nonTerminals, grammar.hasRules symbol = false
  | .fixed => ∃ start, grammar.start? = some start ∧ grammar.hasRules start = false
  | .malformed | .undeclared => False

end Grammar

theorem GrammarFault.mem_record {fault other : GrammarFault} {faults : List GrammarFault} :
    other ∈ fault.record faults ↔ other ∈ faults ∨ other = fault := by
  unfold record
  split
  · next hmem =>
    refine ⟨.inl, ?_⟩
    rintro (hother | rfl)
    · exact hother
    · exact hmem
  · rw [List.mem_cons, or_comm]

namespace Draft

def advance (draft : Draft) : Draft :=
  { draft with position := draft.position + 1 }

theorem feedWord_eq {draft : Draft} {word : String} (hhalted : draft.isHalted = false)
    (hword : word ≠ draft.markers.endGrammar) :
    draft.feedWord word =
      match draft.stage with
      | .nonTerminals =>
        if word = draft.markers.endGroup then ok { draft.advance with stage := .terminals }
        else draft.advance.declare .nonTerminal word
      | .terminals =>
        if word = draft.markers.endGroup then draft.advance.enterRules
        else draft.advance.declare .terminal word
      | .rules phase => draft.advance.feedRuleWord word phase
      | .finished => draft.advance.ok := by
  obtain ⟨markers, grammar, stage, faults, position⟩ := draft
  unfold feedWord
  rw [if_neg (by simp [hhalted])]
  cases stage with
  | finished => rfl
  | nonTerminals | terminals | rules => 
    simp only [reduceCtorEq, if_false, if_neg hword, beq_iff_eq]
    rfl

variable {draft next : Draft} {word key : String} {words : List String}

/-! ## Words -/

theorem feedWords_cons {outcome : Draft} : draft.feedWords (word :: words) = (outcome, .ok ()) ↔
    ∃ next, draft.feedWord word = (next, .ok ()) ∧ next.feedWords words = (outcome, .ok ()) := by
  rw [feedWords]
  split
  · next next hnext => simp [hnext]
  · next next error hnext => simp [hnext]

theorem feedWords_append {others : List String} {outcome : Draft} :
    draft.feedWords (words ++ others) = (outcome, .ok ()) ↔
      ∃ next, draft.feedWords words = (next, .ok ()) ∧ next.feedWords others = (outcome, .ok ()) := by
  induction words generalizing draft with
  | nil => simp [feedWords, ok]
  | cons word words ih =>
    rw [List.cons_append, feedWords_cons]
    simp only [feedWords_cons, ih]
    constructor
    · rintro ⟨first, hfirst, next, hnext, hothers⟩
      exact ⟨next, ⟨first, hfirst, hnext⟩, hothers⟩
    · rintro ⟨next, ⟨first, hfirst, hnext⟩, hothers⟩
      exact ⟨first, hfirst, next, hnext, hothers⟩

theorem feedWords_append_eq (draft : Draft) (words others : List String) :
    draft.feedWords (words ++ others) =
      match draft.feedWords words with
      | (next, .ok ()) => next.feedWords others
      | (next, .error error) => (next, .error error) := by
  induction words generalizing draft with
  | nil => rfl
  | cons word words ih =>
    rw [List.cons_append, feedWords, feedWords]
    rcases draft.feedWord word with ⟨next, error | ⟨⟩⟩
    · rfl
    · exact ih next

theorem isHalted_of_feedWord (h : draft.feedWord word = (next, .ok ())) :
    draft.isHalted = false := by
  cases hhalted : draft.isHalted with
  | false => rfl
  | true =>
    rw [feedWord, if_pos hhalted] at h
    cases (Prod.mk.inj h).2

theorem feedWord_endGrammar (hhalted : draft.isHalted = false) (hstage : draft.stage ≠ .finished) :
    draft.feedWord draft.markers.endGrammar = draft.advance.freeze := by
  unfold feedWord
  rw [if_neg (by simp [hhalted])]
  dsimp only
  rw [if_neg hstage, if_pos rfl]
  rfl

/-! ## The groups of symbols -/

/-- The stage in which symbols of the kind are declared. -/
def stageOf : SymbolKind → DraftStage
  | .nonTerminal => .nonTerminals
  | .terminal => .terminals

theorem feedWord_symbol {kind : SymbolKind} (hstage : draft.stage = stageOf kind)
    (hgrammar : word ≠ draft.markers.endGrammar) (hgroup : word ≠ draft.markers.endGroup)
    (h : draft.feedWord word = (next, .ok ())) : next.stage = stageOf kind ∧
      next.markers = draft.markers ∧ next.grammar = draft.grammar.declare kind word := by
  rw [feedWord_eq (isHalted_of_feedWord h) hgrammar] at h
  obtain ⟨markers, grammar, stage, faults, position⟩ := draft
  obtain rfl : stage = stageOf kind := hstage
  cases kind with
  | terminal | nonTerminal =>
    obtain ⟨rfl, -⟩ := Prod.mk.inj ((if_neg hgroup).symm.trans h)
    exact ⟨rfl, rfl, rfl⟩

theorem exists_group {markers : Markers} {kind : SymbolKind} {outcome : Draft}
    (hmarkers : draft.markers = markers) (hstage : draft.stage = stageOf kind)
    (h : draft.feedWords words = (outcome, .ok ())) (hfinished : outcome.stage = .finished) :
    ∃ names rest after, words = names ++ markers.endGroup :: rest ∧
      markers.endGroup ∉ names ∧ markers.endGrammar ∉ names ∧
      markers.endGroup ≠ markers.endGrammar ∧
      draft.feedWords names = (after, .ok ()) ∧
      after.feedWords (markers.endGroup :: rest) = (outcome, .ok ()) ∧
      after.stage = stageOf kind ∧ after.markers = markers ∧
      after.grammar.rules = draft.grammar.rules ∧
      after.grammar.nonTerminals ⊆ draft.grammar.nonTerminals ++ names := by
  induction words generalizing draft with
  | nil =>
    obtain ⟨rfl, -⟩ := Prod.mk.inj h
    rw [hstage] at hfinished
    cases kind <;> cases hfinished
  | cons word words ih =>
    subst hmarkers
    obtain ⟨next, hnext, hrest⟩ := feedWords_cons.mp h
    have hhalted := isHalted_of_feedWord hnext
    have hunfinished : draft.stage ≠ .finished := by
      rw [hstage]
      cases kind <;> simp [stageOf]
    by_cases hgrammar : word = draft.markers.endGrammar
    · -- the text does not end before the rules
      rw [hgrammar, feedWord_endGrammar hhalted hunfinished, freeze] at hnext
      have hadvanced : draft.advance.stage = stageOf kind := hstage
      cases kind <;> rw [hadvanced] at hnext <;> cases (Prod.mk.inj hnext).2
    by_cases hgroup : word = draft.markers.endGroup
    · subst hgroup
      exact ⟨[], words, draft, rfl, by simp, by simp, hgrammar, rfl, h, hstage, rfl, rfl, by simp⟩
    · obtain ⟨hnextStage, hnextMarkers, hdeclared⟩ := feedWord_symbol hstage hgrammar hgroup hnext
      obtain ⟨names, rest, after, rfl, hnames, hends, hne, hread, hafter, hafterStage, hafterMarkers,
        hrules, hsymbols⟩ := ih hnextMarkers hnextStage hrest
      refine ⟨word :: names, rest, after, rfl, ?_, ?_, hne, feedWords_cons.mpr ⟨_, hnext, hread⟩,
        hafter, hafterStage, hafterMarkers, ?_, ?_⟩
      · exact fun hmem => (List.mem_cons.mp hmem).elim (fun heq => hgroup heq.symm) hnames
      · exact fun hmem => (List.mem_cons.mp hmem).elim (fun heq => hgrammar heq.symm) hends
      · rw [hrules, hdeclared, Grammar.rules_declare]
      · intro symbol hsymbol
        rcases List.mem_append.mp (hsymbols hsymbol) with hmem | hmem
        · rw [hdeclared] at hmem
          rcases Grammar.mem_nonTerminals_declare hmem with hold | rfl
          · exact List.mem_append_left _ hold
          · simp
        · simp [hmem]

theorem feedWord_endNonTerminals {markers : Markers} (hmarkers : draft.markers = markers)
    (hstage : draft.stage = .nonTerminals)
    (hne : markers.endGroup ≠ markers.endGrammar)
    (h : draft.feedWord markers.endGroup = (next, .ok ())) :
    next = { draft.advance with stage := .terminals } := by
  subst hmarkers
  rw [feedWord_eq (isHalted_of_feedWord h) hne, hstage] at h
  exact (Prod.mk.inj ((if_pos rfl).symm.trans h)).1.symm

theorem feedWord_endTerminals {markers : Markers} (hmarkers : draft.markers = markers)
    (hstage : draft.stage = .terminals)
    (hne : markers.endGroup ≠ markers.endGrammar)
    (h : draft.feedWord markers.endGroup = (next, .ok ())) :
    next = { draft.advance with
      grammar := (draft.grammar.declare .terminal endOfInput).declare .terminal emptyText
      stage := .rules .expectKey } := by
  subst hmarkers
  rw [feedWord_eq (isHalted_of_feedWord h) hne, hstage] at h
  have hentered : draft.advance.enterRules = (next, .ok ()) := (if_pos rfl).symm.trans h
  unfold enterRules at hentered
  split at hentered
  · cases (Prod.mk.inj hentered).2
  · exact (Prod.mk.inj hentered).1.symm

/-! ## The rules -/

/-- The other draft is in the rules as well, with the same symbols. -/
structure InRules (draft next : Draft) : Prop where
  stage : ∃ phase, next.stage = .rules phase
  markers : next.markers = draft.markers
  terminals : next.grammar.terminals = draft.grammar.terminals
  nonTerminals : next.grammar.nonTerminals = draft.grammar.nonTerminals

theorem inRules_feedRuleWord (draft : Draft) (word : String) {phase : RulePhase}
    (hstage : draft.stage = .rules phase) :
    draft.InRules (draft.feedRuleWord word phase).1 := by
  obtain ⟨markers, grammar, stage, faults, position⟩ := draft
  obtain rfl : stage = .rules phase := hstage
  unfold feedRuleWord
  cases phase with
  | expectKey =>
    dsimp only
    split
    · exact ⟨⟨_, rfl⟩, rfl, rfl, rfl⟩
    · split <;> exact ⟨⟨_, rfl⟩, rfl, rfl, rfl⟩
  | expectSeparator key =>
    dsimp only
    split
    · unfold beginRule
      dsimp only
      split <;> exact ⟨⟨_, rfl⟩, rfl, rfl, rfl⟩
    · exact ⟨⟨_, rfl⟩, rfl, rfl, rfl⟩
  | inBody key body =>
    dsimp only
    split
    · cases key <;> exact ⟨⟨_, rfl⟩, rfl, rfl, rfl⟩
    · split
      · exact ⟨⟨_, rfl⟩, rfl, rfl, rfl⟩
      · unfold appendSymbol
        dsimp only [ok]
        split <;> exact ⟨⟨_, rfl⟩, rfl, rfl, rfl⟩

theorem exists_end {markers : Markers} {phase : RulePhase} {outcome : Draft}
    (hmarkers : draft.markers = markers) (hstage : draft.stage = .rules phase)
    (h : draft.feedWords words = (outcome, .ok ())) (hfinished : outcome.stage = .finished) :
    ∃ rules rest after, words = rules ++ markers.endGrammar :: rest ∧
      markers.endGrammar ∉ rules ∧ draft.feedWords rules = (after, .ok ()) ∧
      after.feedWords (markers.endGrammar :: rest) = (outcome, .ok ()) ∧
      draft.InRules after ∧ after.stage = .rules .expectKey := by
  induction words generalizing draft phase with
  | nil =>
    obtain ⟨rfl, -⟩ := Prod.mk.inj h
    rw [hstage] at hfinished
    cases hfinished
  | cons word words ih =>
    subst hmarkers
    obtain ⟨next, hnext, hrest⟩ := feedWords_cons.mp h
    have hhalted := isHalted_of_feedWord hnext
    by_cases hgrammar : word = draft.markers.endGrammar
    · refine ⟨[], words, draft, by rw [hgrammar, List.nil_append], by simp, rfl, hgrammar ▸ h,
        ⟨⟨phase, hstage⟩, rfl, rfl, rfl⟩, ?_⟩
      rw [hgrammar, feedWord_endGrammar hhalted (by simp [hstage]), freeze] at hnext
      have hadvanced : draft.advance.stage = .rules phase := hstage
      cases phase with
      | expectKey => exact hstage
      | expectSeparator | inBody =>
        rw [hadvanced] at hnext
        cases (Prod.mk.inj hnext).2
    · have hkept : draft.advance.InRules next := by
        have hword := inRules_feedRuleWord draft.advance word hstage
        rw [feedWord_eq hhalted hgrammar, hstage] at hnext
        dsimp only at hnext
        rwa [hnext] at hword
      obtain ⟨nextPhase, hnextStage⟩ := hkept.stage
      obtain ⟨rules, rest, after, rfl, hrules, hread, hafter, hin, hexpects⟩ := 
        ih hkept.markers hnextStage hrest
      refine ⟨word :: rules, rest, after, rfl, ?_, feedWords_cons.mpr ⟨_, hnext, hread⟩, hafter,
        ⟨hin.stage, hin.markers.trans hkept.markers, hin.terminals.trans hkept.terminals,
          hin.nonTerminals.trans hkept.nonTerminals⟩, hexpects⟩
      exact fun hmem => (List.mem_cons.mp hmem).elim (fun heq => hgrammar heq.symm) hrules

theorem markers_feedWord (hgrammar : word ≠ draft.markers.endGrammar)
    (h : draft.feedWord word = (next, .ok ())) : next.markers = draft.markers := by
  have hhalted := isHalted_of_feedWord h
  cases hstage : draft.stage with
  | nonTerminals =>
    by_cases hgroup : word = draft.markers.endGroup
    · subst hgroup
      rw [feedWord_endNonTerminals rfl hstage hgrammar h]
      rfl
    · have hkind : draft.stage = stageOf .nonTerminal := hstage
      exact (feedWord_symbol hkind hgrammar hgroup h).2.1
  | terminals =>
    by_cases hgroup : word = draft.markers.endGroup
    · subst hgroup
      rw [feedWord_endTerminals rfl hstage hgrammar h]
      rfl
    · have hkind : draft.stage = stageOf .terminal := hstage
      exact (feedWord_symbol hkind hgrammar hgroup h).2.1
  | rules phase =>
    have hkept := inRules_feedRuleWord draft.advance word hstage
    rw [feedWord_eq hhalted hgrammar, hstage] at h
    dsimp only at h
    rw [h] at hkept
    exact hkept.markers
  | finished =>
    rw [feedWord_eq hhalted hgrammar, hstage] at h
    obtain ⟨rfl, -⟩ := Prod.mk.inj h
    rfl

/-! ## The end -/

theorem isHalted_record {fault : GrammarFault} (hfault : fault.isCritical = false) :
    (draft.record fault).isHalted = draft.isHalted := by
  unfold isHalted record GrammarFault.record
  split
  · rfl
  · simp [hfault]

theorem isHalted_recordRuleless (draft : Draft) :
    draft.recordRuleless.isHalted = draft.isHalted := by
  unfold recordRuleless
  dsimp only
  generalize draft.grammar.nonTerminals.filter _ = ruleless
  have hrecorded : (if ruleless = [] then draft else draft.record .ruleless).isHalted =
      draft.isHalted := by
    split
    · rfl
    · exact isHalted_record rfl
  split
  · split
    · rw [isHalted_record rfl, hrecorded]
    · exact hrecorded
  · exact hrecorded

theorem mem_faults_record {fault other : GrammarFault} :
    other ∈ (draft.record fault).faults ↔ other ∈ draft.faults ∨ other = fault :=
  GrammarFault.mem_record

theorem mem_faults_recordRuleless (draft : Draft) (fault : GrammarFault) :
    fault ∈ draft.recordRuleless.faults ↔
      fault ∈ draft.faults ∨ draft.grammar.LacksRules fault := by
  unfold recordRuleless
  dsimp only
  generalize hruleless : draft.grammar.nonTerminals.filter _ = ruleless
  have hmem : ∀ symbol, symbol ∈ ruleless ↔
      symbol ∈ draft.grammar.nonTerminals ∧ draft.grammar.hasRules symbol = false := by
    simp [← hruleless]
  have hrecorded : fault ∈ (if ruleless = [] then draft else draft.record .ruleless).faults ↔
      fault ∈ draft.faults ∨ fault = .ruleless ∧ ∃ symbol, symbol ∈ ruleless := by
    split
    · next hnone => simp [hnone]
    · next hsome => simp [mem_faults_record, List.exists_mem_of_ne_nil _ hsome]
  cases hstart : draft.grammar.start? with
  | none => cases fault <;> simp [hrecorded, hmem, Grammar.LacksRules, hstart]
  | some start =>
    have hfixed : start ∈ ruleless ↔ draft.grammar.hasRules start = false := by
      rw [hmem, and_iff_right (List.mem_of_head? hstart)]
    dsimp only
    split
    · next hlacks =>
      rw [mem_faults_record, hrecorded]
      cases fault <;> simp [hmem, Grammar.LacksRules, hstart, hfixed.mp hlacks]
    · next hkept =>
      rw [hrecorded]
      cases fault <;> simp [hmem, Grammar.LacksRules, hstart, mt hfixed.mpr hkept]

theorem feedWords_finished (hhalted : draft.isHalted = false) (hstage : draft.stage = .finished)
    (words : List String) : ∃ outcome, draft.feedWords words = (outcome, .ok ()) ∧
      outcome.grammar? = draft.grammar? ∧ outcome.faults = draft.faults := by
  induction words generalizing draft with
  | nil => exact ⟨draft, rfl, rfl, rfl⟩
  | cons word words ih =>
    have hnext : draft.feedWord word = (draft.advance, .ok ()) := by
      unfold feedWord
      rw [if_neg (by simp [hhalted])]
      exact if_pos hstage
    obtain ⟨outcome, houtcome, hsame⟩ := @ih draft.advance hhalted hstage
    exact ⟨outcome, feedWords_cons.mpr ⟨_, hnext, houtcome⟩, hsame⟩

/-- At the end the grammar is frozen, and non-terminals without rules are recorded. -/
theorem feedWords_end {markers : Markers} (hmarkers : draft.markers = markers)
    (hhalted : draft.isHalted = false) (hstage : draft.stage = .rules .expectKey)
    (words : List String) :
    ∃ outcome, draft.feedWords (markers.endGrammar :: words) = (outcome, .ok ()) ∧
      outcome.grammar? = .ok draft.grammar.freeze ∧
      ∀ fault, fault ∈ outcome.faults ↔
        fault ∈ draft.faults ∨ draft.grammar.freeze.LacksRules fault := by
  subst hmarkers
  have hunfinished : draft.stage ≠ .finished := by simp [hstage]
  let terminated : Draft := { draft.advance with grammar := draft.grammar.terminateStart }
  let ended : Draft :=
    { terminated.recordRuleless with
      grammar := terminated.recordRuleless.grammar.withSets
      stage := .finished }
  have hended : draft.feedWord draft.markers.endGrammar = (ended, .ok ()) := by
    rw [feedWord_endGrammar hhalted hunfinished]
    obtain ⟨markers, grammar, stage, faults, position⟩ := draft
    obtain rfl : stage = .rules .expectKey := hstage
    rfl
  have hnotHalted : ended.isHalted = false := (isHalted_recordRuleless terminated).trans hhalted
  have hgrammar : ended.grammar = draft.grammar.freeze :=
    congrArg Grammar.withSets (grammar_recordRuleless terminated)
  obtain ⟨outcome, houtcome, hsame, hfaults⟩ := feedWords_finished hnotHalted rfl words
  refine ⟨outcome, feedWords_cons.mpr ⟨ended, hended, houtcome⟩, ?_, fun fault => ?_⟩
  · rw [hsame, grammar?, hnotHalted]
    exact congrArg Except.ok hgrammar
  · rw [hfaults]
    exact mem_faults_recordRuleless terminated fault

/-! ## The texts as a whole -/

/-- The grammar that the words before the end give, as they are written. -/
def written (markers : Markers) (words : List String) : Grammar :=
  (({ markers } : Draft).feedWords (words.takeWhile (· ≠ markers.endGrammar))).1.grammar

theorem takeWhile_ne_append {ending : String} {words rest : List String} (h : ending ∉ words) :
    (words ++ ending :: rest).takeWhile (· ≠ ending) = words := by
  induction words with
  | nil => simp
  | cons word words ih =>
    obtain ⟨hword, hwords⟩ := not_or.mp (mt List.mem_cons.mpr h)
    rw [List.cons_append, List.takeWhile_cons_of_pos (by simpa using Ne.symm hword), ih hwords]

/-- What a text is made of that is read to its end, with the drafts at which the rules begin and
end. -/
structure Parts (markers : Markers) (words : List String) (outcome : Draft) where
  names : List String
  letters : List String
  rules : List String
  rest : List String
  entered : Draft
  ended : Draft
  words_eq : words = names ++ markers.endGroup ::
    (letters ++ markers.endGroup :: (rules ++ markers.endGrammar :: rest))
  endGroup_ne : markers.endGroup ≠ markers.endGrammar
  endGroup_not_mem : markers.endGroup ∉ names ++ letters
  endGrammar_not_mem : markers.endGrammar ∉ names ++ letters ++ rules
  enter : ({ markers } : Draft).feedWords
    (names ++ markers.endGroup :: (letters ++ [markers.endGroup])) = (entered, .ok ())
  stage : entered.stage = .rules .expectKey
  markers_eq : entered.markers = markers
  rules_eq : entered.grammar.rules = []
  nonTerminals : entered.grammar.nonTerminals ⊆ names ++ letters
  special : ∀ symbol ∈ [endOfInput, emptyText],
    symbol ∈ entered.grammar.terminals ∨ symbol ∈ entered.grammar.nonTerminals
  read : entered.feedWords rules = (ended, .ok ())
  inRules : entered.InRules ended
  expects : ended.stage = .rules .expectKey
  finish : ended.feedWords (markers.endGrammar :: rest) = (outcome, .ok ())

theorem exists_parts {markers : Markers} {outcome : Draft}
    (h : ({ markers } : Draft).feedWords words = (outcome, .ok ()))
    (hfinished : outcome.stage = .finished) : Nonempty (Parts markers words outcome) := by
  have hbegin : ({ markers } : Draft).stage = stageOf .nonTerminal := rfl
  obtain ⟨names, afterNames, named, rfl, hnames, hnamesEnd, hne, hnamed, hnext, hnamedStage,
    hnamedMarkers, hnamedRules, hnamedSymbols⟩ := exists_group rfl hbegin h hfinished
  obtain ⟨declared, hdeclared, hlettersRead⟩ := feedWords_cons.mp hnext
  have hdeclaredEq := feedWord_endNonTerminals hnamedMarkers hnamedStage hne hdeclared
  have hdeclaredMarkers : declared.markers = markers := by rw [hdeclaredEq]; exact hnamedMarkers
  have hdeclaredStage : declared.stage = stageOf .terminal := by rw [hdeclaredEq]; rfl
  obtain ⟨letters, afterLetters, lettered, rfl, hletters, hlettersEnd, -, hlettered, hlast,
    hletteredStage, hletteredMarkers, hletteredRules, hletteredSymbols⟩ :=
    exists_group hdeclaredMarkers hdeclaredStage hlettersRead hfinished
  obtain ⟨entered, hentered, hrulesRead⟩ := feedWords_cons.mp hlast
  have henteredEq := feedWord_endTerminals hletteredMarkers hletteredStage hne hentered
  have henteredMarkers : entered.markers = markers := by rw [henteredEq]; exact hletteredMarkers
  have henteredStage : entered.stage = .rules .expectKey := by rw [henteredEq]
  obtain ⟨rules, rest, ended, rfl, hrulesEnd, hread, hfinish, hin, hexpects⟩ :=
    exists_end henteredMarkers henteredStage hrulesRead hfinished
  have hsymbols : entered.grammar.nonTerminals = lettered.grammar.nonTerminals := by
    rw [henteredEq]
    exact (Grammar.nonTerminals_declare_terminal _ _).trans
      (Grammar.nonTerminals_declare_terminal _ _)
  refine ⟨{
    names, letters, rules, rest, entered, ended
    words_eq := rfl
    endGroup_ne := hne
    endGroup_not_mem := by simp [hnames, hletters]
    endGrammar_not_mem := by simp [hnamesEnd, hlettersEnd, hrulesEnd]
    enter := feedWords_append.mpr ⟨named, hnamed, feedWords_cons.mpr ⟨declared, hdeclared,
      feedWords_append.mpr ⟨lettered, hlettered, feedWords_cons.mpr ⟨entered, hentered, rfl⟩⟩⟩⟩
    stage := henteredStage
    markers_eq := henteredMarkers
    rules_eq := ?_
    nonTerminals := ?_
    special := ?_
    read := hread
    inRules := hin
    expects := hexpects
    finish := hfinish }⟩
  · rw [henteredEq]
    refine (Grammar.rules_declare _ _ _).trans ((Grammar.rules_declare _ _ _).trans ?_)
    refine hletteredRules.trans ?_
    rw [hdeclaredEq]
    exact hnamedRules
  · rw [hsymbols]
    refine List.Subset.trans hletteredSymbols ?_
    rw [hdeclaredEq]
    exact List.append_subset.mpr ⟨List.Subset.trans hnamedSymbols (by simp), by simp⟩
  · intro symbol hsymbol
    rw [hsymbols, henteredEq]
    dsimp only
    rcases List.mem_cons.mp hsymbol with rfl | hsymbol
    · exact (Grammar.mem_declare_terminal _ _).imp_left
        fun hmem => Grammar.terminals_subset_declare _ _ hmem
    · obtain rfl := List.mem_singleton.mp hsymbol
      have hmem := Grammar.mem_declare_terminal (lettered.grammar.declare .terminal endOfInput)
        emptyText
      rwa [Grammar.nonTerminals_declare_terminal] at hmem

theorem stage_of_grammar? {grammar : Grammar} (h : draft.grammar? = .ok grammar) :
    draft.stage = .finished := by
  unfold grammar? at h
  split at h
  · cases h
  · split at h
    · assumption
    · cases h

namespace Parts

variable {markers : Markers} {start : String} (parts : Parts markers words next)
include parts

/-- The words before the end. -/
def before : List String :=
  parts.names ++ markers.endGroup :: (parts.letters ++ [markers.endGroup]) ++ parts.rules

theorem words_eq_before : words = parts.before ++ markers.endGrammar :: parts.rest :=
  parts.words_eq.trans (by simp [before])

theorem feedWords_before : ({ markers } : Draft).feedWords parts.before = (parts.ended, .ok ()) :=
  feedWords_append.mpr ⟨_, parts.enter, parts.read⟩

theorem endGrammar_not_mem_before : markers.endGrammar ∉ parts.before := by
  have hother := parts.endGrammar_not_mem
  simp only [List.mem_append, not_or] at hother
  simp [before, hother, Ne.symm parts.endGroup_ne]

theorem written_eq : written markers words = parts.ended.grammar := by
  have hwords : words.takeWhile (· ≠ markers.endGrammar) = parts.before :=
    (congrArg _ parts.words_eq_before).trans (takeWhile_ne_append parts.endGrammar_not_mem_before)
  rw [written, hwords, parts.feedWords_before]

theorem isHalted_entered : parts.entered.isHalted = false := by
  have hread := feedWords_append.mpr ⟨_, parts.read, parts.finish⟩
  obtain ⟨word, words, hwords⟩ := List.exists_cons_of_ne_nil
    (List.append_ne_nil_of_right_ne_nil parts.rules (List.cons_ne_nil markers.endGrammar parts.rest))
  rw [hwords] at hread
  obtain ⟨_, hword, -⟩ := feedWords_cons.mp hread
  exact isHalted_of_feedWord hword

theorem isHalted_ended : parts.ended.isHalted = false := by
  obtain ⟨_, hword, -⟩ := feedWords_cons.mp parts.finish
  exact isHalted_of_feedWord hword

theorem markers_ended : parts.ended.markers = markers :=
  parts.inRules.markers.trans parts.markers_eq

theorem grammar?_eq : next.grammar? = .ok (written markers words).freeze := by
  obtain ⟨outcome, hread, hgrammar, -⟩ :=
    feedWords_end parts.markers_ended parts.isHalted_ended parts.expects parts.rest
  rw [parts.finish] at hread
  obtain ⟨rfl, -⟩ := Prod.mk.inj hread
  rw [hgrammar, parts.written_eq]

end Parts

end Draft

end LineGrammar

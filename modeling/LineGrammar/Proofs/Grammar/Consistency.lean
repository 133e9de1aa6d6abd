import LineGrammar.Proofs.Grammar.Building

/-!
# Consistency of builders

Whatever is done with a builder, its fields fit together: each symbol is listed once and with the
kind that is kept for it, each rule key is a non-terminal with one entry, which is found at the place
that is kept for it, an undeclared symbol stands in an alternative or in the rule that is being read
only if that has been recorded, and there is such a rule only in the right stage and phase
(`Builder.Consistent`). The table of a finished builder keeps the sets of its rules, and stays
(`Builder.Settled`). Both are true of every builder that there can be (`Builder.consistent_run`).
-/

namespace LineGrammar

namespace Builder

structure Consistent (builder : Builder) : Prop where
  nodup_terminals : builder.table.terminals.Nodup
  nodup_nonTerminals : builder.table.nonTerminals.Nodup
  disjoint : builder.table.terminals.Disjoint builder.table.nonTerminals
  mem_terminals : ∀ symbol,
    symbol ∈ builder.table.terminals ↔ builder.table.kinds.lookup symbol = some .terminal
  mem_nonTerminals : ∀ symbol,
    symbol ∈ builder.table.nonTerminals ↔ builder.table.kinds.lookup symbol = some .nonTerminal
  nodup_ruleKeys : (builder.table.rules.map Prod.fst).Nodup
  ruleKeys_subset : builder.table.rules.map Prod.fst ⊆ builder.table.nonTerminals
  ruleIndex : ∀ key index, builder.table.ruleIndex.lookup key = some index ↔
    ∃ alternatives, builder.table.rules[index]? = some (key, alternatives)
  /-- Each rule key is found, with the alternatives that are registered for it. -/
  alternatives_eq : ∀ entry ∈ builder.table.rules,
    builder.table.alternatives entry.1 = entry.2 ∧ entry.2 ≠ []
  alternative_ne_nil : ∀ entry ∈ builder.table.rules, ∀ alternative ∈ entry.2, alternative ≠ []
  undeclared : ∀ entry ∈ builder.table.rules, ∀ alternative ∈ entry.2, ∀ symbol ∈ alternative,
    builder.table.kindOf? symbol = none → .undeclared ∈ builder.faults
  /-- What is being read will fit the table. -/
  key_mem : ∀ key, builder.key = some key → key ∈ builder.table.nonTerminals
  undeclared_body : ∀ symbol ∈ builder.body,
    builder.table.kindOf? symbol = none → .undeclared ∈ builder.faults
  /-- Only in the rules is there a rule that is being read, and only in its body a key and symbols. -/
  phase_eq : builder.stage ≠ .rules → builder.phase = .expectKey
  idle : builder.phase ≠ .body → builder.key = none ∧ builder.body = []
  pendingKey_ne_none : builder.phase = .expectSeparator → builder.pendingKey ≠ none

/-- The kept sets of a builder are those of its rules, each alternative of its start symbol ends with
the end of the input, and its table stays until the builder is cleared. -/
structure Settled (builder : Builder) : Prop where
  firstSet?_eq : ∀ symbol, builder.table.firstSet? symbol =
    if symbol ∈ builder.table.nonTerminals then some (builder.table.first symbol).1 else none
  followSet?_eq : ∀ symbol, builder.table.followSet? symbol =
    if symbol ∈ builder.table.nonTerminals then some (builder.table.follow symbol) else none
  getLast?_eq : ∀ start, builder.table.start? = some start →
    ∀ alternative ∈ builder.table.alternatives start, alternative.getLast? = some endOfInput
  stays : ∀ operations, Draft.Operation.clear ∉ operations →
    (builder.performAll operations).table = builder.table ∧
      (builder.performAll operations).stage = .finished

variable {builder : Builder}

/-! ## What the draft of a builder tells -/

theorem Coherent.stage_draft_of_body (h : builder.Coherent) (hphase : builder.phase = .body) :
    builder.draft.stage = .rules (.inBody builder.key builder.body) := by
  unfold draft rulePhase
  rw [h.stage_of_body hphase, hphase]
  rfl

theorem Coherent.consistent (h : builder.Coherent) (hsound : builder.draft.Sound)
    (hlisted : builder.table.grammar.Listed) (hnoted : builder.draft.Noted) :
    builder.Consistent where
  nodup_terminals := hlisted.nodup_terminals
  nodup_nonTerminals := hlisted.nodup_nonTerminals
  disjoint := fun symbol hterminal => hsound.wellFormed.not_mem_nonTerminals symbol hterminal
  mem_terminals _ := h.indexed.mem_terminals_iff
  mem_nonTerminals _ := h.indexed.mem_nonTerminals_iff
  nodup_ruleKeys := h.indexed.nodup_rules
  ruleKeys_subset := hsound.wellFormed.mem_nonTerminals
  ruleIndex _ _ := h.indexed.lookup_ruleIndex_eq_some_iff
  alternatives_eq entry hentry := by
    refine ⟨?_, hlisted.ne_nil entry hentry⟩
    rw [h.indexed.alternatives_eq]
    exact congrArg (·.getD []) (hsound.wellFormed.lookup_eq_some_iff.mpr hentry)
  alternative_ne_nil := hsound.wellFormed.ne_nil
  undeclared entry hentry alternative halternative symbol hsymbol := by
    rw [h.indexed.kindOf?_eq]
    exact hnoted.rules entry hentry alternative halternative symbol hsymbol
  key_mem key hkey := by
    have hphase : builder.phase = .body := by
      by_contra hphase
      simp [(h.idle hphase).1] at hkey
    have hsuits := hsound.suits
    rw [h.stage_draft_of_body hphase, hkey] at hsuits
    exact hsuits
  undeclared_body symbol hsymbol := by
    have hphase : builder.phase = .body := by
      by_contra hphase
      simp [(h.idle hphase).2] at hsymbol
    rw [h.indexed.kindOf?_eq]
    exact hnoted.body _ _ (h.stage_draft_of_body hphase) symbol hsymbol
  phase_eq := h.phase_eq
  idle := h.idle
  pendingKey_ne_none := h.pendingKey_ne_none

/-! ## Finished builders -/

namespace Coherent

variable (h : builder.Coherent) (hstage : builder.stage = .finished)
include h hstage

omit h in
theorem exists_feedWord_of_finished (word : String) :
    ∃ faults position, (builder.feedWord word).1 = { builder with faults, position } := by
  unfold Builder.feedWord
  split
  · exact ⟨_, _, rfl⟩
  · rw [if_pos hstage]
    exact ⟨_, _, rfl⟩

theorem exists_feedWords_of_finished (words : List String) :
    ∃ faults position, (builder.feedWords words).1 = { builder with faults, position } := by
  induction words generalizing builder with
  | nil => exact ⟨_, _, rfl⟩
  | cons word words ih =>
    obtain ⟨faults, position, hword⟩ := exists_feedWord_of_finished hstage word
    have hcoherent := (h.feedWord word).coherent
    unfold Builder.feedWords
    rcases hfed : builder.feedWord word with ⟨fed, answer⟩
    rw [hfed] at hword hcoherent
    obtain rfl : fed = { builder with faults, position } := hword
    cases answer with
    | error => exact ⟨_, _, rfl⟩
    | ok => exact ih hcoherent hstage

/-- Only faults and the position may change once the builder is finished. -/
theorem exists_perform_of_finished {operation : Draft.Operation} (hclear : operation ≠ .clear) :
    ∃ faults position, (builder.perform operation).1 = { builder with faults, position } := by
  have hphase : builder.phase = .expectKey := h.phase_eq (by simp [hstage])
  obtain ⟨hkey, hbody⟩ := h.idle (by simp [hphase])
  cases operation with
  | feedWord word => exact exists_feedWord_of_finished hstage word
  | feedText text => exact h.exists_feedWords_of_finished hstage _
  | declare kind symbol =>
    have hrejects : builder.declare kind symbol = builder.reject .lateDeclaration :=
      if_pos (.inr hstage)
    exact ⟨_, _, congrArg Prod.fst hrejects⟩
  | beginRule key =>
    have hrejects : builder.beginRule key = builder.reject .ruleOutsideSection :=
      if_pos (by simp [hstage])
    exact ⟨_, _, congrArg Prod.fst hrejects⟩
  | appendSymbol symbol =>
    have hrejects : builder.appendSymbol symbol = builder.reject .symbolOutsideBody :=
      if_pos (by simp [hphase])
    exact ⟨_, _, congrArg Prod.fst hrejects⟩
  | endRule =>
    obtain ⟨markers, table, stage, phase, pendingKey, key, body, faults, position⟩ := builder
    obtain rfl : phase = .expectKey := hphase
    obtain rfl : key = none := hkey
    obtain rfl : body = [] := hbody
    exact ⟨_, _, rfl⟩
  | freeze =>
    have hsame : builder.freeze = (builder, builder.table?.map fun _ => ()) := if_pos hstage
    exact ⟨_, _, congrArg Prod.fst hsame⟩
  | clear => exact absurd rfl hclear

theorem performAll_of_finished {operations : List Draft.Operation} (hclear : .clear ∉ operations) :
    (builder.performAll operations).table = builder.table ∧
      (builder.performAll operations).stage = .finished := by
  induction operations generalizing builder with
  | nil => exact ⟨rfl, hstage⟩
  | cons operation operations ih =>
    rw [List.mem_cons, not_or] at hclear
    obtain ⟨faults, position, hperform⟩ := h.exists_perform_of_finished hstage (Ne.symm hclear.1)
    have hcoherent := (h.perform operation).coherent
    rw [hperform] at hcoherent
    unfold Builder.performAll
    rw [List.foldl_cons, hperform]
    exact ih hcoherent hstage hclear.2

theorem settled {written : Grammar} (hwritten : builder.table.grammar = written.freeze) :
    builder.Settled where
  firstSet?_eq symbol := by
    have hset := Grammar.firstSet?_freeze written symbol
    rw [← hwritten] at hset
    simp only [Grammar.isNonTerminal_iff] at hset
    rw [h.indexed.first_eq]
    exact hset
  followSet?_eq symbol := by
    have hset := Grammar.followSet?_freeze written symbol
    rw [← hwritten] at hset
    simp only [Grammar.isNonTerminal_iff] at hset
    rw [h.indexed.follow_eq]
    exact hset
  getLast?_eq start hstart alternative halternative := by
    have hfrozen : written.freeze.start? = some start := hwritten ▸ hstart
    have hsame : written.start? = some start := hfrozen
    rw [h.indexed.alternatives_eq, hwritten, Grammar.mem_alternatives_freeze_start hsame]
      at halternative
    obtain ⟨body, -, rfl⟩ := halternative
    exact Grammar.getLast?_terminated body
  stays _ hclear := h.performAll_of_finished hstage hclear

end Coherent

/-- **The fields of a builder fit together after any operations, and the table of a finished one is
final.** -/
theorem consistent_run (markers : Markers) (operations : List Draft.Operation) :
    (run markers operations).Consistent ∧
      ((run markers operations).stage = .finished → (run markers operations).Settled) := by
  have hcoherent := coherent_run markers operations
  have hdraft := draft_run markers operations
  have hsound := (Draft.reachable_run markers operations).sound
  have hlisted := Draft.listed_run markers operations
  have hnoted := Draft.noted_run markers operations
  rw [← hdraft] at hsound hlisted hnoted
  refine ⟨hcoherent.consistent hsound hlisted hnoted, fun hstage => ?_⟩
  have hsuits := hsound.suits
  rw [stage_draft_eq_finished_iff.mpr hstage] at hsuits
  obtain ⟨written, hwritten⟩ := hsuits
  exact hcoherent.settled hstage hwritten

/-- A rule with an undeclared symbol, read by words and by operations of which some fail. -/
theorem consistent_run_mixed :
    let operations : List Draft.Operation := [.feedText "S A # a #", .endRule, .feedWord "S",
      .beginRule "S", .appendSymbol "A", .appendSymbol "q", .feedWord "#", .declare .terminal "b",
      .freeze, .appendSymbol "a"]
    (run {} operations).stage = .finished ∧ (run {} operations).faults ≠ [] ∧
      (run {} operations).table.alternatives "S" = [["A", "q", "$"]] ∧
      (run {} operations).Consistent ∧ (run {} operations).Settled := by
  intro operations
  have hstage : (run {} operations).stage = .finished := by decide +kernel
  refine ⟨hstage, by decide +kernel, by decide +kernel, (consistent_run {} operations).1,
    (consistent_run {} operations).2 hstage⟩

end Builder

end LineGrammar

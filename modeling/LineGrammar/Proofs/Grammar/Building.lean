import LineGrammar.Grammar.Builder
import LineGrammar.Proofs.Grammar.Indexing
import LineGrammar.Proofs.Grammar.Tables

/-!
# Builders and drafts

The fields of a builder fit together (`Builder.Coherent`): the maps of its table are right, only in
the rules is it inside a rule, and only in the body of a rule are there a key and symbols. Such a
builder stands for a draft (`Builder.draft`), and each operation, whether it succeeds or fails, keeps
the fields together, does to the draft what the operation on drafts does, and gives the same answer
(`Builder.Coherent.perform`).
-/

namespace LineGrammar

theorem Draft.freeze_of_expectKey {draft : Draft} (h : draft.stage = .rules .expectKey) :
    draft.freeze =
      let recorded := { draft with grammar := draft.grammar.terminateStart }.recordRuleless
      ok { recorded with grammar := recorded.grammar.withSets, stage := .finished } := by
  obtain ⟨markers, grammar, stage, faults, position⟩ := draft
  obtain rfl : stage = .rules .expectKey := h
  rfl

namespace Builder

def rulePhase (builder : Builder) : RulePhase :=
  match builder.phase with
  | .expectKey => .expectKey
  | .expectSeparator => .expectSeparator (builder.pendingKey.getD "")
  | .body => .inBody builder.key builder.body

/-- The stage of a draft, with the phase of the rules where it has one. -/
def Stage.within (phase : RulePhase) : Stage → DraftStage
  | .nonTerminals => .nonTerminals
  | .terminals => .terminals
  | .rules => .rules phase
  | .finished => .finished

/-- The draft that a builder stands for. -/
def draft (builder : Builder) : Draft where
  markers := builder.markers
  grammar := builder.table.grammar
  stage := builder.stage.within builder.rulePhase
  faults := builder.faults
  position := builder.position

/-- The fields of a builder fit together. -/
structure Coherent (builder : Builder) : Prop where
  indexed : builder.table.Indexed
  phase_eq : builder.stage ≠ .rules → builder.phase = .expectKey
  idle : builder.phase ≠ .body → builder.key = none ∧ builder.body = []
  pendingKey_ne_none : builder.phase = .expectSeparator → builder.pendingKey ≠ none

/-- An outcome of a builder is that of the draft, and its fields fit together. -/
structure Mirrors (outcome : Outcome) (other : Draft.Outcome) : Prop where
  coherent : outcome.1.Coherent
  draft_eq : outcome.1.draft = other.1
  answer_eq : outcome.2 = other.2

def perform (builder : Builder) : Draft.Operation → Outcome
  | .feedWord word => builder.feedWord word
  | .feedText text => builder.feedText text
  | .declare kind symbol => builder.declare kind symbol
  | .beginRule key => builder.beginRule key
  | .appendSymbol symbol => builder.appendSymbol symbol
  | .endRule => builder.endRule.ok
  | .freeze => builder.freeze
  | .clear => builder.clear.ok

/-- The builder after operations, of which some may have failed. -/
def performAll (builder : Builder) (operations : List Draft.Operation) : Builder :=
  operations.foldl (fun builder operation => (builder.perform operation).1) builder

def run (markers : Markers) (operations : List Draft.Operation) : Builder :=
  ({ markers } : Builder).performAll operations

theorem coherent_new (markers : Markers) : ({ markers } : Builder).Coherent :=
  ⟨Table.indexed_empty, fun _ => rfl, fun _ => ⟨rfl, rfl⟩, nofun⟩

section

variable {builder : Builder}

theorem stage_draft_eq_finished_iff :
    builder.draft.stage = .finished ↔ builder.stage = .finished := by
  unfold draft
  cases builder.stage <;> simp [Stage.within]

theorem map_table?_eq (builder : Builder) :
    builder.table?.map (fun _ => ()) = builder.draft.grammar?.map fun _ => () := by
  unfold table? Draft.grammar?
  simp only [stage_draft_eq_finished_iff]
  rw [show builder.draft.isHalted = builder.isHalted from rfl]
  split
  · rfl
  · split <;> rfl

/-! ## Non-terminals without rules -/

theorem record_eq_self {fault : GrammarFault} (h : fault ∈ builder.faults) :
    builder.record fault = builder := by
  unfold record GrammarFault.record
  rw [if_pos h]

theorem mem_faults_record_self (builder : Builder) (fault : GrammarFault) :
    fault ∈ (builder.record fault).faults := by
  unfold record GrammarFault.record
  split
  · assumption
  · exact List.mem_cons_self

theorem mem_faults_record_of_mem {fault : GrammarFault} (h : fault ∈ builder.faults)
    (other : GrammarFault) : fault ∈ (builder.record other).faults := by
  unfold record GrammarFault.record
  split
  · exact h
  · exact List.mem_cons_of_mem _ h

theorem foldl_recordRuleless (builder : Builder) (symbols : List String) :
    symbols.foldl recordRuleless builder =
      let ruleless := symbols.filter fun symbol => !builder.table.hasRules symbol
      let recorded := if ruleless = [] then builder else builder.record .ruleless
      match builder.table.start? with
      | some start => if start ∈ ruleless then recorded.record .fixed else recorded
      | none => recorded := by
  induction symbols generalizing builder with
  | nil => cases builder.table.start? <;> rfl
  | cons symbol symbols ih =>
    rw [List.foldl_cons, ih]
    unfold recordRuleless
    cases hrules : builder.table.hasRules symbol with
    | true => simp [hrules]
    | false =>
      have hruleless := builder.mem_faults_record_self .ruleless
      have hself := record_eq_self hruleless
      rcases hstart : builder.table.start? with - | start
      · simp [hrules, hstart, hself, show (builder.record .ruleless).table = builder.table from rfl]
      · by_cases heq : start = symbol
        · have hfixed := (builder.record .ruleless).mem_faults_record_self .fixed
          subst heq
          have htable : ((builder.record .ruleless).record .fixed).table = builder.table := rfl
          have hkeeps := record_eq_self
            ((builder.record .ruleless).mem_faults_record_of_mem hruleless .fixed)
          simp [hrules, hstart, htable, hkeeps, record_eq_self hfixed]
        · have htable : (builder.record .ruleless).table = builder.table := rfl
          simp [hrules, hstart, heq, htable, hself]

theorem exists_foldl_recordRuleless (builder : Builder) (symbols : List String) :
    ∃ faults, symbols.foldl recordRuleless builder = { builder with faults } := by
  rw [foldl_recordRuleless]
  dsimp only
  split
  · split <;> split <;> exact ⟨_, rfl⟩
  · split <;> exact ⟨_, rfl⟩

theorem draft_foldl_recordRuleless (h : builder.table.Indexed) :
    (builder.table.nonTerminals.foldl recordRuleless builder).draft =
      builder.draft.recordRuleless := by
  have hsame : (fun symbol => !builder.table.hasRules symbol) =
      fun symbol => !builder.draft.grammar.hasRules symbol :=
    funext fun _ => congrArg not h.hasRules_eq
  have hstart : builder.draft.grammar.start? = builder.table.start? := rfl
  have hnonTerminals : builder.draft.grammar.nonTerminals = builder.table.nonTerminals := rfl
  rw [foldl_recordRuleless, Draft.recordRuleless, hsame, hstart, hnonTerminals]
  generalize builder.table.nonTerminals.filter _ = ruleless
  rcases builder.table.start? with - | start
  · by_cases hnone : ruleless = []
    · simp only [hnone, if_true]
    · simp only [hnone, if_false]
      rfl
  · by_cases hnone : ruleless = []
    · simp only [hnone, if_true, List.not_mem_nil, if_false]
    · by_cases hmem : start ∈ ruleless
      · simp only [hnone, hmem, if_true, if_false]
        rfl
      · simp only [hnone, hmem, if_false]
        rfl

namespace Coherent

variable (h : builder.Coherent)
include h

theorem stage_of_body (hphase : builder.phase = .body) : builder.stage = .rules := by
  by_contra hstage
  simp [h.phase_eq hstage] at hphase

theorem record (fault : GrammarFault) : (builder.record fault).Coherent :=
  ⟨h.indexed, h.phase_eq, h.idle, h.pendingKey_ne_none⟩

theorem ok : Mirrors builder.ok builder.draft.ok :=
  ⟨h, rfl, rfl⟩

theorem reject (fault : SyntaxFault) :
    Mirrors (builder.reject fault) (builder.draft.reject fault) :=
  ⟨h.record .malformed, rfl, rfl⟩

theorem declare (kind : SymbolKind) (symbol : String) :
    Mirrors (builder.declare kind symbol) (builder.draft.declare kind symbol) := by
  have hgrammar := h.indexed.grammar_declare kind symbol
  obtain ⟨markers, table, stage, phase, pendingKey, key, body, faults, position⟩ := builder
  cases stage with
  | nonTerminals | terminals =>
    exact ⟨⟨h.indexed.declare kind symbol, h.phase_eq, h.idle, h.pendingKey_ne_none⟩,
      congrArg (Draft.mk markers · _ faults position) hgrammar, rfl⟩
  | rules | finished => exact h.reject _

omit h in
theorem of_body (hindexed : builder.table.Indexed) (hstage : builder.stage = .rules)
    (hphase : builder.phase = .body) : builder.Coherent where
  indexed := hindexed
  phase_eq hother := absurd hstage hother
  idle hother := absurd hphase hother
  pendingKey_ne_none hother := by simp [hphase] at hother

omit h in
theorem beginRule_of_rules (hindexed : builder.table.Indexed) (hstage : builder.stage = .rules)
    (phase : RulePhase) (name : String) :
    Mirrors (builder.beginRule name)
      ({ builder.draft with stage := .rules phase }.beginRule name) := by
  have hkind : builder.table.kindOf? name = builder.table.grammar.kindOf? name := hindexed.kindOf?_eq
  obtain ⟨markers, table, stage, _, pendingKey, key, body, faults, position⟩ := builder
  obtain rfl : stage = .rules := hstage
  unfold Builder.beginRule Draft.beginRule
  dsimp only [draft] at hkind ⊢
  rw [hkind]
  rcases table.grammar.kindOf? name with - | (_ | _)
  · exact ⟨of_body hindexed rfl rfl, rfl, rfl⟩
  · exact ⟨of_body hindexed rfl rfl, rfl, rfl⟩
  · exact ⟨of_body hindexed rfl rfl, rfl, rfl⟩

theorem beginRule (name : String) :
    Mirrors (builder.beginRule name) (builder.draft.beginRule name) := by
  by_cases hstage : builder.stage = .rules
  · have hmirrors := beginRule_of_rules h.indexed hstage builder.rulePhase name
    obtain ⟨markers, table, stage, phase, pendingKey, key, body, faults, position⟩ := builder
    obtain rfl : stage = .rules := hstage
    exact hmirrors
  · obtain ⟨markers, table, stage, phase, pendingKey, key, body, faults, position⟩ := builder
    cases stage with
    | rules => exact absurd rfl hstage
    | nonTerminals | terminals | finished => exact h.reject _

theorem appendSymbol (symbol : String) :
    Mirrors (builder.appendSymbol symbol) (builder.draft.appendSymbol symbol) := by
  have hkind : builder.table.kindOf? symbol = builder.table.grammar.kindOf? symbol :=
    h.indexed.kindOf?_eq
  obtain ⟨markers, table, stage, phase, pendingKey, key, body, faults, position⟩ := builder
  cases phase with
  | body =>
    obtain rfl : stage = .rules := h.stage_of_body rfl
    unfold Builder.appendSymbol Draft.appendSymbol
    dsimp only [draft, Stage.within, rulePhase] at hkind ⊢
    rw [hkind]
    rcases table.grammar.kindOf? symbol with - | _
    · exact ⟨of_body h.indexed rfl rfl, rfl, rfl⟩
    · exact ⟨of_body h.indexed rfl rfl, rfl, rfl⟩
  | expectKey | expectSeparator => cases stage <;> exact h.reject _

theorem endRule : Mirrors builder.endRule.ok builder.draft.endRule.ok := by
  obtain ⟨markers, table, stage, phase, pendingKey, key, body, faults, position⟩ := builder
  cases phase with
  | body =>
    obtain rfl : stage = .rules := h.stage_of_body rfl
    cases key with
    | none => exact ⟨⟨h.indexed, fun _ => rfl, fun _ => ⟨rfl, rfl⟩, nofun⟩, rfl, rfl⟩
    | some key =>
      exact ⟨⟨h.indexed.pushAlternative _ _, fun _ => rfl, fun _ => ⟨rfl, rfl⟩, nofun⟩,
        congrArg (Draft.mk markers · _ faults position) (h.indexed.grammar_pushAlternative _ _), rfl⟩
  | expectKey | expectSeparator =>
    obtain ⟨rfl, rfl⟩ := h.idle nofun
    cases stage with
    | rules => exact ⟨⟨h.indexed, fun _ => rfl, fun _ => ⟨rfl, rfl⟩, nofun⟩, rfl, rfl⟩
    | nonTerminals | terminals | finished =>
      exact ⟨⟨h.indexed, fun _ => rfl, fun _ => ⟨rfl, rfl⟩, nofun⟩, rfl, rfl⟩

theorem enterRules (hstage : builder.stage ≠ .rules) :
    Mirrors builder.enterRules builder.draft.enterRules := by
  have hindexed := (h.indexed.declare .terminal endOfInput).declare .terminal emptyText
  have hgrammar := (h.indexed.declare .terminal endOfInput).grammar_declare .terminal emptyText
  rw [h.indexed.grammar_declare] at hgrammar
  have hiff : builder.draft.grammar.terminals = [] ∨ builder.draft.grammar.nonTerminals = [] ↔
      builder.table.terminals = [] ∨ builder.table.nonTerminals = [] := Iff.rfl
  unfold Builder.enterRules Draft.enterRules
  simp only [hiff]
  split
  · exact h.reject _
  · have hphase := h.phase_eq hstage
    obtain ⟨markers, table, stage, phase, pendingKey, key, body, faults, position⟩ := builder
    obtain rfl : phase = .expectKey := hphase
    exact ⟨⟨hindexed, fun _ => rfl, h.idle, nofun⟩,
      congrArg (Draft.mk markers · _ faults position) hgrammar, rfl⟩

theorem freeze_of_expectKey (hstage : builder.stage = .rules)
    (hphase : builder.phase = .expectKey) : Mirrors builder.freeze builder.draft.freeze := by
  let terminated : Builder := { builder with table := builder.table.terminateStart }
  have hgrammar : terminated.table.grammar = builder.draft.grammar.terminateStart :=
    h.indexed.grammar_terminateStart
  obtain ⟨faults, hrecorded⟩ :=
    exists_foldl_recordRuleless terminated terminated.table.nonTerminals
  have hbuilder : builder.freeze = Builder.ok { terminated with
      table := terminated.table.computeSets, stage := .finished, faults } := by
    unfold Builder.freeze
    rw [if_neg (by simp [hstage]), if_neg (by simp [hstage]), if_neg (by simp [hphase])]
    exact congrArg (fun recorded : Builder => Builder.ok { recorded with
      table := recorded.table.computeSets, stage := .finished }) hrecorded
  have hdraft : { builder.draft with
      grammar := builder.draft.grammar.terminateStart }.recordRuleless =
        { terminated with faults }.draft := by
    rw [← hgrammar, ← hrecorded]
    exact (@draft_foldl_recordRuleless terminated h.indexed.terminateStart).symm
  have hother : builder.draft.freeze = Draft.ok { builder.draft with
      grammar := terminated.table.grammar.withSets, stage := .finished, faults } := by
    have hdraftStage : builder.draft.stage = .rules .expectKey := by
      unfold draft rulePhase
      rw [hstage, hphase]
      rfl
    rw [Draft.freeze_of_expectKey hdraftStage]
    exact congrArg (fun recorded : Draft => Draft.ok { recorded with
      grammar := recorded.grammar.withSets, stage := .finished }) hdraft
  rw [hbuilder, hother]
  refine ⟨⟨h.indexed.terminateStart.computeSets, fun _ => hphase, h.idle, h.pendingKey_ne_none⟩,
    ?_, rfl⟩
  exact congrArg (fun grammar => ({ builder.draft with grammar, stage := .finished, faults } : Draft))
    h.indexed.terminateStart.grammar_computeSets

theorem freeze : Mirrors builder.freeze builder.draft.freeze := by
  have hanswer := map_table?_eq builder
  have hexpectKey := h.freeze_of_expectKey
  obtain ⟨markers, table, stage, phase, pendingKey, key, body, faults, position⟩ := builder
  cases stage with
  | finished => exact ⟨h, rfl, hanswer⟩
  | nonTerminals | terminals => exact h.reject _
  | rules =>
    cases phase with
    | body | expectSeparator => exact h.reject _
    | expectKey => exact hexpectKey rfl rfl

theorem feedRuleWord (hstage : builder.stage = .rules) (word : String) :
    Mirrors (builder.feedRuleWord word) (builder.draft.feedRuleWord word builder.rulePhase) := by
  have hbegin := @beginRule_of_rules { builder with pendingKey := none } h.indexed hstage
    builder.rulePhase (builder.pendingKey.getD "")
  have hend := h.endRule
  have happend := h.appendSymbol word
  unfold Builder.feedRuleWord Draft.feedRuleWord
  rw [show builder.draft.markers = builder.markers from rfl]
  obtain ⟨markers, table, stage, phase, pendingKey, key, body, faults, position⟩ := builder
  obtain rfl : stage = .rules := hstage
  cases phase with
  | expectKey =>
    dsimp only [rulePhase]
    split
    · exact h.ok
    · split
      · exact h.reject _
      · exact ⟨⟨h.indexed, fun hother => absurd rfl hother, fun _ => h.idle nofun, nofun⟩, rfl, rfl⟩
  | expectSeparator =>
    dsimp only [rulePhase]
    split
    · exact hbegin
    · exact h.reject _
  | body =>
    dsimp only [rulePhase]
    split
    · exact hend
    · split
      · exact h.reject _
      · exact happend

theorem feedWord (word : String) :
    Mirrors (builder.feedWord word) (builder.draft.feedWord word) := by
  unfold Builder.feedWord Draft.feedWord
  rw [show builder.draft.isHalted = builder.isHalted from rfl]
  split
  · exact ⟨h, rfl, rfl⟩
  · have hcounted : Coherent { builder with position := builder.position + 1 } :=
      ⟨h.indexed, h.phase_eq, h.idle, h.pendingKey_ne_none⟩
    have hfreeze := hcounted.freeze
    have hrule (hstage : builder.stage = .rules) := hcounted.feedRuleWord hstage word
    have henter := hcounted.enterRules
    have hdeclare (kind : SymbolKind) := hcounted.declare kind word
    obtain ⟨markers, table, stage, phase, pendingKey, key, body, faults, position⟩ := builder
    rw [show (draft ⟨markers, table, stage, phase, pendingKey, key, body, faults, position⟩).markers =
      markers from rfl]
    cases stage with
    | nonTerminals =>
      obtain rfl : phase = .expectKey := h.phase_eq nofun
      dsimp only [draft, Stage.within]
      simp only [reduceCtorEq, if_false]
      split
      · exact hfreeze
      · split
        · exact ⟨⟨h.indexed, fun _ => rfl, h.idle, nofun⟩, rfl, rfl⟩
        · exact hdeclare _
    | terminals =>
      dsimp only [draft, Stage.within]
      simp only [reduceCtorEq, if_false]
      split
      · exact hfreeze
      · split
        · exact henter nofun
        · exact hdeclare _
    | rules =>
      dsimp only [draft, Stage.within]
      simp only [reduceCtorEq, if_false]
      split
      · exact hfreeze
      · exact hrule rfl
    | finished => exact hcounted.ok

theorem feedWords (words : List String) :
    Mirrors (builder.feedWords words) (builder.draft.feedWords words) := by
  induction words generalizing builder with
  | nil => exact h.ok
  | cons word words ih =>
    obtain ⟨hcoherent, hdraft, hanswer⟩ := h.feedWord word
    unfold Builder.feedWords Draft.feedWords
    rcases hfed : builder.feedWord word with ⟨fed, answer⟩
    rcases hother : builder.draft.feedWord word with ⟨other, otherAnswer⟩
    rw [hfed, hother] at hanswer hdraft
    rw [hfed] at hcoherent
    obtain rfl : answer = otherAnswer := hanswer
    obtain rfl : fed.draft = other := hdraft
    cases answer with
    | ok => exact ih hcoherent
    | error => exact ⟨hcoherent, rfl, rfl⟩

/-- Whatever is done, the fields fit together afterwards, and the draft has gone along. -/
theorem perform (operation : Draft.Operation) :
    Mirrors (builder.perform operation) (builder.draft.perform operation) := by
  cases operation with
  | feedWord word => exact h.feedWord word
  | feedText text => exact h.feedWords _
  | declare kind symbol => exact h.declare kind symbol
  | beginRule key => exact h.beginRule key
  | appendSymbol symbol => exact h.appendSymbol symbol
  | endRule => exact h.endRule
  | freeze => exact h.freeze
  | clear => exact ⟨coherent_new builder.markers, rfl, rfl⟩

theorem performAll (operations : List Draft.Operation) :
    (builder.performAll operations).Coherent ∧
      (builder.performAll operations).draft = builder.draft.performAll operations := by
  induction operations generalizing builder with
  | nil => exact ⟨h, rfl⟩
  | cons operation operations ih =>
    obtain ⟨hcoherent, hdraft, -⟩ := h.perform operation
    obtain ⟨hcoherentAll, hdraftAll⟩ := ih hcoherent
    rw [hdraft] at hdraftAll
    exact ⟨hcoherentAll, hdraftAll⟩

end Coherent

/-- A new builder stands for a new draft, and goes on doing so. -/
theorem draft_run (markers : Markers) (operations : List Draft.Operation) :
    (run markers operations).draft = Draft.run markers operations :=
  ((coherent_new markers).performAll operations).2

theorem coherent_run (markers : Markers) (operations : List Draft.Operation) :
    (run markers operations).Coherent :=
  ((coherent_new markers).performAll operations).1

end

end Builder

end LineGrammar

import LineGrammar.Proofs.Grammar.Tables

/-!
# Halted drafts

A draft that has halted refuses every word, but the single operations by which words are read do not
look at that. So a halted draft stands still exactly under those operations that its stage does not
admit (`Draft.stopped_iff`), and a draft stops for good exactly if no admitted one is tried after it
has halted (`Draft.stopsForGood_iff`).
-/

namespace LineGrammar

/-- The part of a grammar text, whatever has been read of a rule. -/
def DraftStage.part : DraftStage → DraftStage
  | .rules _ => .rules .expectKey
  | stage => stage

namespace Draft

/-- The operations that a draft on which nothing can be done any more has to fail. The words of a
text may be none, and the end of a rule and clearing do not fail. -/
def Operation.Fallible : Operation → Prop
  | .feedWord _ | .declare _ _ | .beginRule _ | .appendSymbol _ | .freeze => True
  | .feedText _ | .endRule | .clear => False

/-- The operation fails, and leaves the part of the text and the tables as they are. -/
structure Stopped (draft : Draft) (operation : Operation) : Prop where
  fails : operation.Fallible → ∃ error, (draft.perform operation).2 = .error error
  part_eq : (draft.perform operation).1.stage.part = draft.stage.part
  grammar_eq : (draft.perform operation).1.grammar = draft.grammar

/-- The single operations that a draft takes by its stage alone. Words are none of them. -/
def Admits (draft : Draft) : Operation → Prop
  | .declare _ _ => draft.stage = .nonTerminals ∨ draft.stage = .terminals
  | .beginRule _ => ∃ phase, draft.stage = .rules phase
  | .appendSymbol _ => ∃ key body, draft.stage = .rules (.inBody key body)
  | .endRule => ∃ key body, draft.stage = .rules (.inBody (some key) body)
  | .freeze => draft.stage = .rules .expectKey
  | .feedWord _ | .feedText _ | .clear => False

/-- After the draft has halted, and until it is cleared, it stands still under each operation. -/
def StopsForGood (markers : Markers) (operations : List Operation) : Prop :=
  ∀ before since operation after, operations = before ++ since ++ operation :: after →
    (run markers before).isHalted = true → .clear ∉ since → operation ≠ .clear →
      Stopped (run markers (before ++ since)) operation

variable {draft after : Draft} {operation : Operation}

/-! ## A single operation -/

theorem isHalted_iff : draft.isHalted = true ↔ .malformed ∈ draft.faults := by
  unfold isHalted
  rw [List.any_eq_true]
  constructor
  · rintro ⟨fault, hmem, hcritical⟩
    cases fault with
    | malformed => exact hmem
    | ruleless | undeclared | fixed => simp [GrammarFault.isCritical] at hcritical
  · exact fun hmem => ⟨_, hmem, rfl⟩

theorem isHalted_of_moves (hmoves : Moves draft after) (hhalted : draft.isHalted = true) :
    after.isHalted = true := by
  rw [isHalted_iff] at hhalted ⊢
  induction hmoves with
  | refl => exact hhalted
  | tail _ hmove ih => exact hmove.mono.2 ih

theorem stopped_of_eq (h : draft.perform operation = (draft, .error .halted)) :
    Stopped draft operation :=
  ⟨fun _ => ⟨.halted, by rw [h]⟩, by rw [h], by rw [h]⟩

theorem stopped_of_reject {fault : SyntaxFault} (h : draft.perform operation = draft.reject fault) :
    Stopped draft operation :=
  ⟨fun _ => ⟨_, by rw [h]; rfl⟩, by rw [h]; rfl, by rw [h]; rfl⟩

theorem stopped_feedWord (hhalted : draft.isHalted = true) (word : String) :
    Stopped draft (.feedWord word) :=
  stopped_of_eq (if_pos hhalted)

theorem stopped_feedText (hhalted : draft.isHalted = true) (text : String) :
    Stopped draft (.feedText text) := by
  have hsame : ∀ words, (draft.feedWords words).1 = draft := by
    intro words
    cases words with
    | nil => rfl
    | cons word words =>
      have hword : draft.feedWord word = (draft, .error .halted) := if_pos hhalted
      rw [feedWords, hword]
  have hdraft : (draft.perform (.feedText text)).1 = draft := hsame _
  exact ⟨False.elim, by rw [hdraft], by rw [hdraft]⟩

theorem stopped_of_not_admits (hhalted : draft.isHalted = true) (hclear : operation ≠ .clear)
    (hadmits : ¬Admits draft operation) : Stopped draft operation := by
  cases operation with
  | feedWord word => exact stopped_feedWord hhalted word
  | feedText text => exact stopped_feedText hhalted text
  | declare kind symbol =>
    refine stopped_of_reject
      (show draft.declare kind symbol = draft.reject .lateDeclaration from ?_)
    unfold Draft.declare
    split
    · next hstage => exact absurd (.inl hstage) hadmits
    · next hstage => exact absurd (.inr hstage) hadmits
    · rfl
  | beginRule key =>
    refine stopped_of_reject (show draft.beginRule key = draft.reject .ruleOutsideSection from ?_)
    unfold beginRule
    split
    · next phase hstage => exact absurd ⟨phase, hstage⟩ hadmits
    · rfl
  | appendSymbol symbol =>
    refine stopped_of_reject
      (show draft.appendSymbol symbol = draft.reject .symbolOutsideBody from ?_)
    unfold appendSymbol
    split
    · next key body hstage => exact absurd ⟨key, body, hstage⟩ hadmits
    · rfl
  | endRule =>
    have hsame : draft.endRule.stage.part = draft.stage.part ∧
        draft.endRule.grammar = draft.grammar := by
      unfold endRule
      split
      · next key body hstage => exact absurd ⟨key, body, hstage⟩ hadmits
      · next hstage => exact ⟨by rw [hstage]; rfl, rfl⟩
      · exact ⟨rfl, rfl⟩
    exact ⟨False.elim, hsame.1, hsame.2⟩
  | freeze =>
    cases hstage : draft.stage with
    | finished =>
      refine stopped_of_eq (show draft.freeze = (draft, .error .halted) from ?_)
      unfold Draft.freeze grammar?
      rw [hstage, if_pos hhalted]
      rfl
    | nonTerminals | terminals =>
      refine stopped_of_reject (show draft.freeze = draft.reject .endBeforeRules from ?_)
      unfold Draft.freeze
      rw [hstage]
    | rules phase =>
      refine stopped_of_reject (show draft.freeze = draft.reject .endInsideRule from ?_)
      unfold Draft.freeze
      rw [hstage]
      cases phase with
      | expectKey => exact absurd hstage hadmits
      | expectSeparator | inBody => rfl
  | clear => exact absurd rfl hclear

theorem addAlternativeTo_ne (key : String) (alternative : Alternative)
    (entries : List (String × List Alternative)) :
    Grammar.addAlternativeTo key alternative entries ≠ entries := by
  induction entries with
  | nil => exact List.cons_ne_nil _ _
  | cons entry entries ih =>
    obtain ⟨other, alternatives⟩ := entry
    unfold Grammar.addAlternativeTo
    split
    · simp
    · simpa using ih

theorem not_stopped_of_admits (hadmits : Admits draft operation) : ¬Stopped draft operation := by
  have hok : (draft.perform operation).2 = .ok () → operation.Fallible →
      ¬Stopped draft operation := by
    rintro hok hfallible ⟨hfails, -, -⟩
    obtain ⟨error, herror⟩ := hfails hfallible
    rw [hok] at herror
    cases herror
  cases operation with
  | declare kind symbol =>
    refine hok (show (draft.declare kind symbol).2 = .ok () from ?_) trivial
    unfold Draft.declare
    rcases hadmits with hstage | hstage <;> rw [hstage] <;> rfl
  | beginRule key =>
    obtain ⟨phase, hstage⟩ := hadmits
    refine hok (show (draft.beginRule key).2 = .ok () from ?_) trivial
    unfold beginRule
    rw [hstage]
    dsimp only
    split <;> rfl
  | appendSymbol symbol =>
    obtain ⟨key, body, hstage⟩ := hadmits
    refine hok (show (draft.appendSymbol symbol).2 = .ok () from ?_) trivial
    unfold appendSymbol
    rw [hstage]
    rfl
  | endRule =>
    obtain ⟨key, body, hstage⟩ := hadmits
    rintro ⟨-, -, hgrammar⟩
    change draft.endRule.grammar = draft.grammar at hgrammar
    unfold endRule at hgrammar
    rw [hstage] at hgrammar
    exact addAlternativeTo_ne _ _ _ (congrArg Grammar.rules hgrammar)
  | freeze =>
    refine hok (show draft.freeze.2 = .ok () from ?_) trivial
    unfold Draft.freeze
    rw [show draft.stage = _ from hadmits]
    rfl
  | feedWord | feedText | clear => exact hadmits.elim

/-- A halted draft stands still exactly under the operations that its stage does not admit. -/
theorem stopped_iff (hhalted : draft.isHalted = true) (hclear : operation ≠ .clear) :
    Stopped draft operation ↔ ¬Admits draft operation :=
  ⟨fun hstopped hadmits => not_stopped_of_admits hadmits hstopped,
    stopped_of_not_admits hhalted hclear⟩

/-! ## Many operations -/

/-- **A draft stops for good exactly if no operation is tried on it that its stage admits after it
has halted.** -/
theorem stopsForGood_iff (markers : Markers) (operations : List Operation) :
    StopsForGood markers operations ↔
      ∀ before operation after, operations = before ++ operation :: after →
        (run markers before).isHalted = true → ¬Admits (run markers before) operation := by
  constructor
  · intro hstops before operation after heq hhalted hadmits
    have hclear : operation ≠ .clear := by
      rintro rfl
      exact hadmits
    have hstopped := hstops before [] operation after (by rw [heq, List.append_nil]) hhalted
      List.not_mem_nil hclear
    rw [List.append_nil] at hstopped
    exact not_stopped_of_admits hadmits hstopped
  · intro hnone before since operation after heq hhalted hsince hclear
    have hstill : (run markers (before ++ since)).isHalted = true := by
      unfold run
      rw [performAll_append]
      exact isHalted_of_moves (moves_performAll _ hsince) hhalted
    exact (stopped_iff hstill hclear).mpr (hnone _ _ _ heq hstill)

/-- A grammar whose last word halts the draft is frozen all the same. -/
theorem not_stopsForGood_freeze : ¬StopsForGood {} [.feedText "S # a # ->", .freeze] := by
  intro hstops
  obtain ⟨error, herror⟩ := (hstops [.feedText "S # a # ->"] [] .freeze [] rfl (by decide +kernel)
    List.not_mem_nil (by decide)).fails trivial
  have hok : ((run {} [.feedText "S # a # ->"]).perform .freeze).2.isOk = true := by decide +kernel
  rw [List.append_nil] at herror
  rw [herror] at hok
  cases hok

end Draft

end LineGrammar

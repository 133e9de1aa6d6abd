import LineGrammar.Proofs.Grammar.Format

/-!
# Operations of drafts

A draft is worked on by operations in any order, also ones that it refuses. Whatever an operation
does but clearing, it does by moves (`Draft.moves_perform`): it takes a note, declares a symbol,
goes on to another part of the text or of a rule, adds an alternative, or freezes the grammar. So
what moves keep is true of every draft that there can be (`Draft.invariant_run`).
-/

namespace LineGrammar

namespace Draft

inductive Operation where
  | feedWord (word : String)
  | feedText (text : String)
  | declare (kind : SymbolKind) (symbol : String)
  | beginRule (key : String)
  | appendSymbol (symbol : String)
  | endRule
  | freeze
  | clear
  deriving DecidableEq, Repr

def perform (draft : Draft) : Operation → Outcome
  | .feedWord word => draft.feedWord word
  | .feedText text => draft.feedText text
  | .declare kind symbol => draft.declare kind symbol
  | .beginRule key => draft.beginRule key
  | .appendSymbol symbol => draft.appendSymbol symbol
  | .endRule => draft.endRule.ok
  | .freeze => draft.freeze
  | .clear => draft.clear.ok

def performAll (draft : Draft) (operations : List Operation) : Draft :=
  operations.foldl (fun draft operation => (draft.perform operation).1) draft

/-- A new draft after operations. -/
def run (markers : Markers) (operations : List Operation) : Draft :=
  ({ markers } : Draft).performAll operations

theorem performAll_append (draft : Draft) (operations others : List Operation) :
    draft.performAll (operations ++ others) = (draft.performAll operations).performAll others :=
  List.foldl_append

/-! ## Moves -/

/-- A single thing that is done with a draft. -/
inductive Move : Draft → Draft → Prop
  | note {draft : Draft} {faults : List GrammarFault} (position : Nat)
    (hfaults : draft.faults ⊆ faults) : Move draft { draft with faults, position }
  | declare {draft : Draft} (kind : SymbolKind) (symbol : String)
    (hstage : draft.stage = .nonTerminals ∨ draft.stage = .terminals) :
    Move draft { draft with grammar := draft.grammar.declare kind symbol }
  | enterTerminals {draft : Draft} (hstage : draft.stage = .nonTerminals) :
    Move draft { draft with stage := .terminals }
  | enterRules {draft : Draft} (hstage : draft.stage = .terminals) :
    Move draft { draft with grammar := draft.grammar.withSpecial, stage := .rules .expectKey }
  /-- A rule may be left at any time, and one that is begun has no symbols yet. -/
  | turn {draft : Draft} {phase : RulePhase} (next : RulePhase)
    (hstage : draft.stage = .rules phase)
    (hbody : ∀ key body, next = .inBody key body → body = []) :
    Move draft { draft with stage := .rules next }
  | append {draft : Draft} {key : Option String} {body : List String} (symbol : String)
    (hstage : draft.stage = .rules (.inBody key body))
    (hsymbol : draft.grammar.kindOf? symbol = none → .undeclared ∈ draft.faults) :
    Move draft { draft with stage := .rules (.inBody key (body ++ [symbol])) }
  | add {draft : Draft} {key : String} {body : List String}
    (hstage : draft.stage = .rules (.inBody (some key) body)) :
    Move draft { draft with
      grammar := draft.grammar.addAlternative key (if body = [] then [emptyText] else body)
      stage := .rules .expectKey }
  | freeze {draft : Draft} (hstage : draft.stage = .rules .expectKey) :
    Move draft { draft with grammar := draft.grammar.freeze, stage := .finished }

abbrev Moves : Draft → Draft → Prop :=
  Relation.ReflTransGen Move

section

variable {draft after : Draft}

theorem faults_subset_record (draft : Draft) (fault : GrammarFault) :
    draft.faults ⊆ (draft.record fault).faults :=
  fun _ hfault => mem_faults_record.mpr (.inl hfault)

theorem undeclared_mem_record (draft : Draft) :
    .undeclared ∈ (draft.record .undeclared).faults :=
  mem_faults_record.mpr (.inr rfl)

theorem move_record (draft : Draft) (fault : GrammarFault) : Move draft (draft.record fault) :=
  .note draft.position (draft.faults_subset_record fault)

theorem moves_reject (draft : Draft) (fault : SyntaxFault) : Moves draft (draft.reject fault).1 :=
  .single (draft.move_record .malformed)

theorem moves_declare (draft : Draft) (kind : SymbolKind) (symbol : String) :
    Moves draft (draft.declare kind symbol).1 := by
  unfold Draft.declare
  split
  · next hstage => exact .single (.declare kind symbol (.inl hstage))
  · next hstage => exact .single (.declare kind symbol (.inr hstage))
  · exact moves_reject _ _

theorem moves_beginRule (draft : Draft) (key : String) : Moves draft (draft.beginRule key).1 := by
  have hbody : ∀ (key : Option String) other body,
      RulePhase.inBody key [] = .inBody other body → body = [] := by
    rintro key other body ⟨⟩
    rfl
  unfold beginRule
  split
  · next phase hstage =>
    split
    · exact .single (.turn _ hstage (hbody _))
    · exact .head (draft.move_record .fixed) (.single (.turn _ hstage (hbody _)))
    · exact .head (draft.move_record .undeclared) (.single (.turn _ hstage (hbody _)))
  · exact moves_reject _ _

theorem moves_appendSymbol (draft : Draft) (symbol : String) :
    Moves draft (draft.appendSymbol symbol).1 := by
  unfold appendSymbol
  split
  · next key body hstage =>
    dsimp only [ok]
    split
    · next hknown =>
      refine .single (.append symbol hstage fun hnone => ?_)
      rw [hnone] at hknown
      cases hknown
    · refine .head (draft.move_record .undeclared) (.single (.append symbol hstage fun _ => ?_))
      exact draft.undeclared_mem_record
  · exact moves_reject _ _

theorem moves_endRule (draft : Draft) : Moves draft draft.endRule := by
  unfold endRule
  split
  · next hstage => exact .single (.add hstage)
  · next hstage => exact .single (.turn _ hstage fun _ _ heq => by cases heq)
  · exact .refl

theorem moves_enterRules (hstage : draft.stage = .terminals) :
    Moves draft draft.enterRules.1 := by
  unfold Draft.enterRules
  split
  · exact moves_reject _ _
  · exact .single (.enterRules hstage)

theorem recordRuleless_eq (draft : Draft) :
    draft.recordRuleless = { draft with faults := draft.recordRuleless.faults } ∧
      draft.faults ⊆ draft.recordRuleless.faults := by
  have hrecord : ∀ fault other, draft.faults ⊆ ((draft.record fault).record other).faults :=
    fun fault other => List.Subset.trans (draft.faults_subset_record fault)
      ((draft.record fault).faults_subset_record other)
  unfold recordRuleless
  dsimp only
  split
  · split
    · split
      · exact ⟨rfl, draft.faults_subset_record .fixed⟩
      · exact ⟨rfl, hrecord .ruleless .fixed⟩
    · split
      · exact ⟨rfl, List.Subset.refl _⟩
      · exact ⟨rfl, draft.faults_subset_record .ruleless⟩
  · split
    · exact ⟨rfl, List.Subset.refl _⟩
    · exact ⟨rfl, draft.faults_subset_record .ruleless⟩

theorem moves_freeze (draft : Draft) : Moves draft draft.freeze.1 := by
  unfold Draft.freeze
  split
  · exact .refl
  · next hstage =>
    obtain ⟨heq, hfaults⟩ :=
      recordRuleless_eq { draft with grammar := draft.grammar.terminateStart }
    dsimp only [ok]
    rw [heq]
    exact .head (.freeze hstage) (.single (.note draft.position hfaults))
  · exact moves_reject _ _
  · exact moves_reject _ _

theorem moves_feedRuleWord {phase : RulePhase} (hstage : draft.stage = .rules phase)
    (word : String) : Moves draft (draft.feedRuleWord word phase).1 := by
  unfold feedRuleWord
  dsimp only
  split
  · split
    · exact .refl
    · split
      · exact moves_reject _ _
      · exact .single (.turn _ hstage fun _ _ heq => by cases heq)
  · split
    · exact moves_beginRule _ _
    · exact moves_reject _ _
  · split
    · exact moves_endRule _
    · split
      · exact moves_reject _ _
      · exact moves_appendSymbol _ _

theorem moves_feedWord (draft : Draft) (word : String) : Moves draft (draft.feedWord word).1 := by
  unfold feedWord
  split
  · exact .refl
  · have hcount : Move draft { draft with position := draft.position + 1 } :=
      .note _ (List.Subset.refl _)
    refine .head hcount ?_
    dsimp only
    split
    · exact .refl
    · split
      · exact moves_freeze _
      · split
        · next hstage =>
          split
          · exact .single (.enterTerminals hstage)
          · exact moves_declare _ _ _
        · next hstage =>
          split
          · exact moves_enterRules hstage
          · exact moves_declare _ _ _
        · next hstage =>
          exact @moves_feedRuleWord { draft with position := draft.position + 1 } _ hstage word
        · exact .refl

theorem moves_feedWords (draft : Draft) (words : List String) :
    Moves draft (draft.feedWords words).1 := by
  induction words generalizing draft with
  | nil => exact .refl
  | cons word words ih =>
    have hword := moves_feedWord draft word
    unfold feedWords
    split
    · next heq =>
      rw [heq] at hword
      exact hword.trans (ih _)
    · next heq =>
      rw [heq] at hword
      exact hword

/-- Whatever an operation does but clearing, it does by moves. -/
theorem moves_perform (draft : Draft) {operation : Operation} (hclear : operation ≠ .clear) :
    Moves draft (draft.perform operation).1 := by
  cases operation with
  | feedWord word => exact moves_feedWord draft word
  | feedText text => exact moves_feedWords draft _
  | declare kind symbol => exact moves_declare draft kind symbol
  | beginRule key => exact moves_beginRule draft key
  | appendSymbol symbol => exact moves_appendSymbol draft symbol
  | endRule => exact moves_endRule draft
  | freeze => exact moves_freeze draft
  | clear => exact absurd rfl hclear

theorem moves_performAll (draft : Draft) {operations : List Operation}
    (hclear : .clear ∉ operations) : Moves draft (draft.performAll operations) := by
  induction operations generalizing draft with
  | nil => exact .refl
  | cons operation operations ih =>
    rw [List.mem_cons, not_or] at hclear
    exact (moves_perform draft (Ne.symm hclear.1)).trans (ih _ hclear.2)

/-- What moves keep and every new draft has, each draft has that operations lead to. -/
theorem invariant_run {property : Draft → Prop} (hnew : ∀ markers, property { markers })
    (hmove : ∀ draft after, property draft → Move draft after → property after)
    (markers : Markers) (operations : List Operation) : property (run markers operations) := by
  induction operations using List.reverseRecOn with
  | nil => exact hnew markers
  | append_singleton operations operation ih =>
    unfold run at ih ⊢
    rw [performAll_append]
    by_cases hclear : operation = .clear
    · subst hclear
      exact hnew _
    · exact Relation.ReflTransGen.head_induction_on
        (motive := fun draft _ => property draft → property _)
        (moves_perform _ hclear) id
        (fun hstep _ ihRest hdraft => ihRest (hmove _ _ hdraft hstep)) ih

end

end Draft

end LineGrammar

import LineGrammar.Proofs.Grammar.Operating

/-!
# Tables of drafts

In every draft that there can be, no symbol is listed twice and each rule key has an alternative
(`Draft.listed_run`), and an undeclared symbol stands in an alternative, or in the rule that is being
read, only if that has been recorded (`Draft.noted_run`). Each move keeps this.
-/

namespace LineGrammar

namespace Grammar

/-- No symbol is declared twice as the same kind, and each rule key has some alternative. -/
structure Listed (grammar : Grammar) : Prop where
  nodup_nonTerminals : grammar.nonTerminals.Nodup
  nodup_terminals : grammar.terminals.Nodup
  ne_nil : ∀ entry ∈ grammar.rules, entry.2 ≠ []

variable {grammar : Grammar} {symbol other key : String} {alternative : Alternative}

theorem kindOf?_declare_eq_none {kind : SymbolKind} :
    (grammar.declare kind symbol).kindOf? other = none ↔
      grammar.kindOf? other = none ∧ other ≠ symbol := by
  rw [kindOf?_declare, Option.or_eq_none_iff]
  simp

theorem kindOf?_withSpecial_eq_none :
    grammar.withSpecial.kindOf? other = none ↔
      grammar.kindOf? other = none ∧ other ≠ endOfInput ∧ other ≠ emptyText := by
  unfold withSpecial
  rw [kindOf?_declare_eq_none, kindOf?_declare_eq_none, and_assoc]

theorem rules_withSpecial (grammar : Grammar) : grammar.withSpecial.rules = grammar.rules :=
  (rules_declare _ _ _).trans (rules_declare _ _ _)

theorem ne_nil_of_mem_addAlternativeTo {entries : List (String × List Alternative)}
    (hentries : ∀ entry ∈ entries, entry.2 ≠ []) {entry : String × List Alternative}
    (h : entry ∈ addAlternativeTo key alternative entries) : entry.2 ≠ [] := by
  induction entries with
  | nil =>
    obtain rfl := List.mem_singleton.mp h
    exact List.cons_ne_nil _ _
  | cons first entries ih =>
    obtain ⟨name, alternatives⟩ := first
    rw [List.forall_mem_cons] at hentries
    unfold addAlternativeTo at h
    split at h
    · rcases List.mem_cons.mp h with rfl | hrest
      · exact List.append_ne_nil_of_right_ne_nil _ (List.cons_ne_nil _ _)
      · exact hentries.2 entry hrest
    · rcases List.mem_cons.mp h with rfl | hrest
      · exact hentries.1
      · exact ih hentries.2 hrest

/-- An alternative of the frozen rules is a written one, perhaps with the end of the input behind
it. -/
theorem mem_rules_freeze {entry : String × List Alternative} (hentry : entry ∈ grammar.freeze.rules)
    (halternative : alternative ∈ entry.2) :
    ∃ written ∈ grammar.rules, ∃ body ∈ written.2, alternative = body ∨
      alternative = terminated body := by
  obtain ⟨⟨key, alternatives⟩, hwritten, rfl⟩ := List.mem_map.mp hentry
  dsimp only at halternative
  split at halternative
  · obtain ⟨body, hbody, rfl⟩ := List.mem_map.mp halternative
    exact ⟨_, hwritten, body, hbody, .inr rfl⟩
  · exact ⟨_, hwritten, alternative, halternative, .inl rfl⟩

theorem mem_terminated (h : symbol ∈ terminated alternative) :
    symbol ∈ alternative ∨ symbol = endOfInput := by
  unfold terminated at h
  split at h
  · exact .inl h
  · rwa [List.mem_append, List.mem_singleton] at h

namespace Listed

variable (h : grammar.Listed)
include h

protected theorem declare (kind : SymbolKind) (symbol : String) :
    (grammar.declare kind symbol).Listed := by
  have hconcat : ∀ symbols : List String, symbols.Nodup → symbol ∉ symbols →
      (symbols ++ [symbol]).Nodup :=
    fun symbols hnodup hfresh => List.nodup_append'.mpr
      ⟨hnodup, List.nodup_singleton symbol, List.disjoint_singleton.mpr hfresh⟩
  unfold Grammar.declare
  split
  · exact h
  · next hfresh =>
    obtain ⟨hterminal, hnonTerminal⟩ := kindOf?_eq_none.mp (by simpa using hfresh)
    cases kind with
    | terminal =>
      exact ⟨h.nodup_nonTerminals, hconcat _ h.nodup_terminals hterminal, h.ne_nil⟩
    | nonTerminal =>
      exact ⟨hconcat _ h.nodup_nonTerminals hnonTerminal, h.nodup_terminals, h.ne_nil⟩

protected theorem addAlternative (key : String) (alternative : Alternative) :
    (grammar.addAlternative key alternative).Listed :=
  ⟨h.nodup_nonTerminals, h.nodup_terminals,
    fun _ hentry => ne_nil_of_mem_addAlternativeTo h.ne_nil hentry⟩

protected theorem freeze : grammar.freeze.Listed := by
  refine ⟨h.nodup_nonTerminals, h.nodup_terminals, fun entry hentry => ?_⟩
  obtain ⟨⟨key, alternatives⟩, hwritten, rfl⟩ := List.mem_map.mp hentry
  have hne : alternatives ≠ [] := h.ne_nil _ hwritten
  dsimp only
  split
  · exact mt List.map_eq_nil_iff.mp hne
  · exact hne

end Listed

end Grammar

namespace Draft

variable {draft after : Draft}

/-! ## What moves keep -/

theorem Move.listed (h : draft.grammar.Listed) (hmove : Move draft after) :
    after.grammar.Listed := by
  cases hmove with
  | declare kind symbol => exact h.declare kind symbol
  | enterRules => exact (h.declare .terminal endOfInput).declare .terminal emptyText
  | add => exact h.addAlternative _ _
  | freeze => exact h.freeze
  | note | enterTerminals | turn | append => exact h

/-- If one of the symbols is not declared, that has been recorded. -/
def Notes (draft : Draft) (symbols : List String) : Prop :=
  ∀ symbol ∈ symbols, draft.grammar.kindOf? symbol = none → .undeclared ∈ draft.faults

/-- Whatever is undeclared in the alternatives, or in the rule that is being read, has been
recorded; among the rules the symbols with a meaning of their own are declared. -/
structure Noted (draft : Draft) : Prop where
  rules : ∀ entry ∈ draft.grammar.rules, ∀ alternative ∈ entry.2, draft.Notes alternative
  body : ∀ key body, draft.stage = .rules (.inBody key body) → draft.Notes body
  special : ∀ phase, draft.stage = .rules phase →
    draft.grammar.kindOf? endOfInput ≠ none ∧ draft.grammar.kindOf? emptyText ≠ none

theorem Move.mono (hmove : Move draft after) :
    (∀ symbol, after.grammar.kindOf? symbol = none → draft.grammar.kindOf? symbol = none) ∧
      draft.faults ⊆ after.faults := by
  cases hmove with
  | note position hfaults => exact ⟨fun _ => id, hfaults⟩
  | declare kind symbol =>
    exact ⟨fun _ hnone => (Grammar.kindOf?_declare_eq_none.mp hnone).1, List.Subset.refl _⟩
  | enterRules =>
    exact ⟨fun _ hnone => (Grammar.kindOf?_withSpecial_eq_none.mp hnone).1, List.Subset.refl _⟩
  | enterTerminals | turn | append | add | freeze => exact ⟨fun _ => id, List.Subset.refl _⟩

theorem Notes.of_move {symbols : List String} (h : draft.Notes symbols) (hmove : Move draft after) :
    after.Notes symbols :=
  fun symbol hsymbol hnone => hmove.mono.2 (h symbol hsymbol (hmove.mono.1 symbol hnone))

/-- The symbols of an alternative that a move adds have been read before, or have a meaning of their
own. -/
theorem Noted.notes_of_move (h : draft.Noted) (hmove : Move draft after) :
    ∀ entry ∈ after.grammar.rules, ∀ alternative ∈ entry.2, draft.Notes alternative := by
  cases hmove with
  | declare kind symbol =>
    dsimp only
    rw [Grammar.rules_declare]
    exact h.rules
  | enterRules =>
    dsimp only
    rw [Grammar.rules_withSpecial]
    exact h.rules
  | add hstage =>
    intro entry hentry alternative halternative symbol hsymbol hnone
    rcases Grammar.mem_addAlternativeTo hentry halternative with rfl | ⟨before, hbefore, hmem⟩
    · split at hsymbol
      · obtain rfl := List.mem_singleton.mp hsymbol
        exact absurd hnone (h.special _ hstage).2
      · exact h.body _ _ hstage symbol hsymbol hnone
    · exact h.rules before hbefore alternative hmem symbol hsymbol hnone
  | freeze hstage =>
    intro entry hentry alternative halternative symbol hsymbol hnone
    obtain ⟨written, hwritten, body, hbody, rfl | rfl⟩ :=
      Grammar.mem_rules_freeze hentry halternative
    · exact h.rules written hwritten _ hbody symbol hsymbol hnone
    · rcases Grammar.mem_terminated hsymbol with hsymbol | rfl
      · exact h.rules written hwritten body hbody symbol hsymbol hnone
      · exact absurd hnone (h.special _ hstage).1
  | note | enterTerminals | turn | append => exact h.rules

theorem Noted.of_move (h : draft.Noted) (hmove : Move draft after) : after.Noted := by
  refine ⟨fun entry hentry alternative halternative =>
    (h.notes_of_move hmove entry hentry alternative halternative).of_move hmove, ?_, ?_⟩
  · intro key body hafter
    refine Notes.of_move ?_ hmove
    cases hmove with
    | note => exact h.body key body hafter
    | declare => exact h.body key body hafter
    | turn next hstage hbody =>
      obtain rfl := hbody key body (DraftStage.rules.inj hafter)
      intro symbol hsymbol
      simp at hsymbol
    | append symbol hstage hsymbol =>
      obtain ⟨rfl, rfl⟩ := RulePhase.inBody.inj (DraftStage.rules.inj hafter)
      intro other hother hnone
      rcases List.mem_append.mp hother with hother | hother
      · exact h.body _ _ hstage other hother hnone
      · obtain rfl := List.mem_singleton.mp hother
        exact hsymbol hnone
    | enterTerminals | enterRules | add | freeze => cases hafter
  · intro phase hafter
    have hold : ∀ phase, draft.stage = .rules phase →
        after.grammar.kindOf? endOfInput ≠ none ∧ after.grammar.kindOf? emptyText ≠ none :=
      fun phase hstage => (h.special phase hstage).imp (mt (hmove.mono.1 _)) (mt (hmove.mono.1 _))
    cases hmove with
    | note => exact hold phase hafter
    | declare => exact hold phase hafter
    | enterRules =>
      exact ⟨fun hnone => (Grammar.kindOf?_withSpecial_eq_none.mp hnone).2.1 rfl,
        fun hnone => (Grammar.kindOf?_withSpecial_eq_none.mp hnone).2.2 rfl⟩
    | turn next hstage => exact hold _ hstage
    | append symbol hstage => exact hold _ hstage
    | add hstage => exact hold _ hstage
    | enterTerminals | freeze => cases hafter

/-! ## Every draft -/

theorem reachable_perform (h : draft.Reachable) (operation : Operation) :
    (draft.perform operation).1.Reachable := by
  obtain ⟨markers, hsteps⟩ := h
  cases operation with
  | feedWord word => exact ⟨markers, hsteps.tail (.feedWord draft word)⟩
  | feedText text => exact Reachable.feedWords ⟨markers, hsteps⟩ (wordsOf text)
  | declare kind symbol => exact ⟨markers, hsteps.tail (.declare draft kind symbol)⟩
  | beginRule key => exact ⟨markers, hsteps.tail (.beginRule draft key)⟩
  | appendSymbol symbol => exact ⟨markers, hsteps.tail (.appendSymbol draft symbol)⟩
  | endRule => exact ⟨markers, hsteps.tail (.endRule draft)⟩
  | freeze => exact ⟨markers, hsteps.tail (.freeze draft)⟩
  | clear => exact ⟨markers, hsteps.tail (.clear draft)⟩

theorem reachable_run (markers : Markers) (operations : List Operation) :
    (run markers operations).Reachable := by
  induction operations using List.reverseRecOn with
  | nil => exact ⟨markers, .refl⟩
  | append_singleton operations operation ih =>
    unfold run at ih ⊢
    rw [performAll_append]
    exact reachable_perform ih operation

theorem listed_run (markers : Markers) (operations : List Operation) :
    (run markers operations).grammar.Listed :=
  @invariant_run (fun draft => draft.grammar.Listed)
    (fun _ => ⟨List.nodup_nil, List.nodup_nil, by simp⟩) (fun _ _ h hmove => hmove.listed h)
    markers operations

theorem noted_run (markers : Markers) (operations : List Operation) :
    (run markers operations).Noted :=
  invariant_run (fun _ => ⟨by simp, by simp, by simp⟩) (fun _ _ h hmove => h.of_move hmove)
    markers operations

end Draft

end LineGrammar

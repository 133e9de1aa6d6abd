import LineGrammar.Grammar.Draft
import Mathlib.Data.List.Basic
import Mathlib.Data.List.Nodup
import Mathlib.Logic.Relation

/-!
# Frozen grammars

A grammar is frozen when a draft of it is finished. Whatever operations led there, in whatever
order, each rule key stands once in the rules and is a non-terminal, no symbol is of both kinds, and
no alternative is without symbols (`Frozen.wellFormed`); and the kept sets are those of the rules
(`Frozen.firstSet?_eq`, `Frozen.followSet?_eq`).
-/

namespace LineGrammar

namespace Grammar

/-- What is made of the written rules at the end: the alternatives of the start symbol end with the
end of the input, and the sets are found. -/
def freeze (written : Grammar) : Grammar :=
  written.terminateStart.withSets

/-- Each rule key is a non-terminal with one entry in the rules, no symbol is of both kinds, and each
alternative has some symbol. -/
structure WellFormed (grammar : Grammar) : Prop where
  nodup_ruleKeys : grammar.ruleKeys.Nodup
  mem_nonTerminals : ∀ key ∈ grammar.ruleKeys, key ∈ grammar.nonTerminals
  not_mem_nonTerminals : ∀ symbol ∈ grammar.terminals, symbol ∉ grammar.nonTerminals
  ne_nil : ∀ entry ∈ grammar.rules, ∀ alternative ∈ entry.2, alternative ≠ []

section

variable {grammar : Grammar} {symbol key : String}

theorem isTerminal_iff : grammar.isTerminal symbol = true ↔ symbol ∈ grammar.terminals :=
  List.contains_iff_mem

theorem isNonTerminal_iff : grammar.isNonTerminal symbol = true ↔ symbol ∈ grammar.nonTerminals :=
  List.contains_iff_mem

theorem kindOf?_eq_none : grammar.kindOf? symbol = none ↔
    symbol ∉ grammar.terminals ∧ symbol ∉ grammar.nonTerminals := by
  rw [← isTerminal_iff, ← isNonTerminal_iff]
  unfold kindOf?
  split
  · next hterminal => simp [hterminal]
  · next hterminal => split <;> simp_all

theorem kindOf?_eq_nonTerminal (h : grammar.kindOf? symbol = some .nonTerminal) :
    symbol ∈ grammar.nonTerminals := by
  unfold kindOf? at h
  split at h
  · simp at h
  · split at h
    · next hsymbol => exact isNonTerminal_iff.mp hsymbol
    · simp at h

/-! ## The rules -/

theorem mem_of_lookup {α : Type} {entries : List (String × α)} {value : α}
    (h : entries.lookup key = some value) : (key, value) ∈ entries := by
  obtain ⟨before, after, rfl, -⟩ := List.lookup_eq_some_iff.mp h
  simp

theorem lookup_eq_some_iff_mem {α : Type} {entries : List (String × α)} {value : α}
    (h : (entries.map Prod.fst).Nodup) :
    entries.lookup key = some value ↔ (key, value) ∈ entries := by
  refine ⟨mem_of_lookup, fun hmem => ?_⟩
  induction entries with
  | nil => simp at hmem
  | cons entry entries ih =>
    obtain ⟨other, first⟩ := entry
    rw [List.map_cons, List.nodup_cons] at h
    rw [List.lookup_cons]
    rcases List.mem_cons.mp hmem with heq | hrest
    · obtain ⟨rfl, rfl⟩ := Prod.mk.inj heq
      simp
    · have hne : key ≠ other := by
        rintro rfl
        exact h.1 (List.mem_map.mpr ⟨_, hrest, rfl⟩)
      rw [beq_eq_false_iff_ne.mpr hne]
      exact ih h.2 hrest

theorem lookup_eq_none_iff_not_mem {α : Type} {entries : List (String × α)} :
    entries.lookup key = none ↔ key ∉ entries.map Prod.fst := by
  simp only [List.lookup_eq_none_iff, bne_iff_ne, List.mem_map, not_exists, not_and]
  exact forall₂_congr fun _ _ => ne_comm

theorem mem_alternatives_iff {alternative : Alternative} :
    alternative ∈ grammar.alternatives key ↔
      ∃ alternatives, grammar.rules.lookup key = some alternatives ∧ alternative ∈ alternatives := by
  unfold alternatives
  cases grammar.rules.lookup key <;> simp

theorem mem_ruleKeys_of_mem_alternatives {alternative : Alternative}
    (h : alternative ∈ grammar.alternatives key) : key ∈ grammar.ruleKeys := by
  obtain ⟨alternatives, hlookup, -⟩ := mem_alternatives_iff.mp h
  exact List.mem_map.mpr ⟨_, mem_of_lookup hlookup, rfl⟩

namespace WellFormed

variable (h : grammar.WellFormed)
include h

theorem lookup_eq_some_iff {alternatives : List Alternative} :
    grammar.rules.lookup key = some alternatives ↔ (key, alternatives) ∈ grammar.rules :=
  lookup_eq_some_iff_mem h.nodup_ruleKeys

theorem alternatives_eq_nil (hsymbol : grammar.isTerminal symbol = true) :
    grammar.alternatives symbol = [] := by
  rw [List.eq_nil_iff_forall_not_mem]
  intro alternative hmem
  exact h.not_mem_nonTerminals symbol (isTerminal_iff.mp hsymbol)
    (h.mem_nonTerminals symbol (mem_ruleKeys_of_mem_alternatives hmem))

theorem alternative_ne_nil {alternative : Alternative}
    (hmem : alternative ∈ grammar.alternatives key) : alternative ≠ [] := by
  obtain ⟨alternatives, hlookup, hmem⟩ := mem_alternatives_iff.mp hmem
  exact h.ne_nil _ (mem_of_lookup hlookup) alternative hmem

/-! ## What a draft does to a grammar -/

protected theorem declare (kind : SymbolKind) (symbol : String) :
    (grammar.declare kind symbol).WellFormed := by
  unfold Grammar.declare
  split
  · exact h
  · next hfresh =>
    obtain ⟨hterminal, hnonTerminal⟩ := kindOf?_eq_none.mp (by simpa using hfresh)
    cases kind with
    | terminal =>
      refine ⟨h.nodup_ruleKeys, h.mem_nonTerminals, fun other hother => ?_, h.ne_nil⟩
      rcases List.mem_append.mp hother with hother | hother
      · exact h.not_mem_nonTerminals other hother
      · rwa [List.mem_singleton.mp hother]
    | nonTerminal =>
      refine ⟨h.nodup_ruleKeys, fun key hkey => ?_, fun other hother hmem => ?_, h.ne_nil⟩
      · exact List.mem_append_left _ (h.mem_nonTerminals key hkey)
      · rcases List.mem_append.mp hmem with hmem | hmem
        · exact h.not_mem_nonTerminals other hother hmem
        · exact hterminal (List.mem_singleton.mp hmem ▸ hother)

end WellFormed

theorem map_fst_addAlternativeTo (alternative : Alternative)
    (entries : List (String × List Alternative)) :
    (addAlternativeTo key alternative entries).map Prod.fst =
      if key ∈ entries.map Prod.fst then entries.map Prod.fst else entries.map Prod.fst ++ [key] := by
  induction entries with
  | nil => rfl
  | cons entry entries ih =>
    obtain ⟨other, alternatives⟩ := entry
    unfold addAlternativeTo
    split
    · next heq => simp [heq]
    · next hne =>
      have hne' : key ≠ other := fun heq => hne heq.symm
      rw [List.map_cons, ih]
      split <;> simp_all

theorem mem_addAlternativeTo {alternative : Alternative} {entries : List (String × List Alternative)}
    {entry : String × List Alternative} (h : entry ∈ addAlternativeTo key alternative entries)
    {other : Alternative} (hother : other ∈ entry.2) :
    other = alternative ∨ ∃ before ∈ entries, other ∈ before.2 := by
  induction entries with
  | nil =>
    obtain rfl := List.mem_singleton.mp h
    exact .inl (List.mem_singleton.mp hother)
  | cons first entries ih =>
    obtain ⟨name, alternatives⟩ := first
    unfold addAlternativeTo at h
    split at h
    · rcases List.mem_cons.mp h with rfl | hrest
      · rcases List.mem_append.mp hother with hold | hnew
        · exact .inr ⟨_, List.mem_cons_self, hold⟩
        · exact .inl (List.mem_singleton.mp hnew)
      · exact .inr ⟨entry, List.mem_cons_of_mem _ hrest, hother⟩
    · rcases List.mem_cons.mp h with rfl | hrest
      · exact .inr ⟨_, List.mem_cons_self, hother⟩
      · exact (ih hrest).imp_right fun ⟨before, hbefore, hmem⟩ =>
          ⟨before, List.mem_cons_of_mem _ hbefore, hmem⟩

protected theorem WellFormed.addAlternative (h : grammar.WellFormed) {alternative : Alternative}
    (hkey : key ∈ grammar.nonTerminals) (hne : alternative ≠ []) :
    (grammar.addAlternative key alternative).WellFormed := by
  have hkeys : (grammar.addAlternative key alternative).ruleKeys =
      if key ∈ grammar.ruleKeys then grammar.ruleKeys else grammar.ruleKeys ++ [key] :=
    map_fst_addAlternativeTo alternative grammar.rules
  refine ⟨?_, fun other hother => ?_, h.not_mem_nonTerminals, fun entry hentry other hother => ?_⟩
  · rw [hkeys]
    split
    · exact h.nodup_ruleKeys
    · next hfresh =>
      rw [List.nodup_append]
      refine ⟨h.nodup_ruleKeys, by simp, ?_⟩
      rintro other hother _ hsame rfl
      exact hfresh (List.mem_singleton.mp hsame ▸ hother)
  · rw [hkeys] at hother
    split at hother
    · exact h.mem_nonTerminals other hother
    · rcases List.mem_append.mp hother with hother | hother
      · exact h.mem_nonTerminals other hother
      · rwa [List.mem_singleton.mp hother]
  · rcases mem_addAlternativeTo hentry hother with rfl | ⟨before, hbefore, hmem⟩
    · exact hne
    · exact h.ne_nil before hbefore other hmem

theorem terminated_ne_nil {alternative : Alternative} (h : alternative ≠ []) :
    terminated alternative ≠ [] := by
  unfold terminated
  split
  · exact h
  · simp

protected theorem WellFormed.terminateStart (h : grammar.WellFormed) :
    grammar.terminateStart.WellFormed := by
  have hkeys : grammar.terminateStart.ruleKeys = grammar.ruleKeys := by
    unfold ruleKeys terminateStart
    rw [List.map_map]
    rfl
  refine ⟨hkeys ▸ h.nodup_ruleKeys, hkeys ▸ h.mem_nonTerminals, h.not_mem_nonTerminals, ?_⟩
  intro entry hentry alternative hmem
  obtain ⟨⟨key, alternatives⟩, hbefore, rfl⟩ := List.mem_map.mp hentry
  dsimp only at hmem
  split at hmem
  · obtain ⟨other, hother, rfl⟩ := List.mem_map.mp hmem
    exact terminated_ne_nil (h.ne_nil _ hbefore other hother)
  · exact h.ne_nil _ hbefore alternative hmem

protected theorem WellFormed.withSets (h : grammar.WellFormed) : grammar.withSets.WellFormed :=
  ⟨h.nodup_ruleKeys, h.mem_nonTerminals, h.not_mem_nonTerminals, h.ne_nil⟩

/-! ## What the sets depend on -/

variable {other : Grammar}

theorem firstWithin_congr (hterminals : other.terminals = grammar.terminals)
    (hrules : other.rules = grammar.rules) :
    (∀ free symbol, other.firstWithin free symbol = grammar.firstWithin free symbol) ∧
    (∀ free key index alternatives,
      other.firstOfAlternatives free key index alternatives =
        grammar.firstOfAlternatives free key index alternatives) ∧
    (∀ free place body,
      other.firstOfBody free place body = grammar.firstOfBody free place body) := by
  have hterminal : ∀ symbol, other.isTerminal symbol = grammar.isTerminal symbol :=
    fun symbol => congrArg (List.contains · symbol) hterminals
  apply firstWithin.mutual_induct grammar
  case case1 =>
    intro free symbol hsymbol
    rw [firstWithin, firstWithin, hterminal, if_pos hsymbol, if_pos hsymbol]
  case case2 =>
    intro free symbol hsymbol hlookup
    rw [firstWithin, firstWithin, hterminal, if_neg hsymbol, if_neg hsymbol, hrules, hlookup]
  case case3 =>
    intro free symbol hsymbol alternatives hlookup found nullable _ ih
    rw [firstWithin, firstWithin, hterminal, if_neg hsymbol, if_neg hsymbol, hrules, hlookup]
    dsimp only
    rw [ih]
  case case4 =>
    intro free key index
    rw [firstOfAlternatives, firstOfAlternatives]
  case case5 =>
    intro free key index alternative rest body found nullable _ others othersNullable _ ihBody ihRest
    rw [firstOfAlternatives, firstOfAlternatives, ihBody, ihRest]
  case case6 =>
    intro free place
    rw [firstOfBody, firstOfBody]
  case case7 =>
    intro free place symbol rest hfree found hfound next others nullable _ ih ihRest
    rw [firstOfBody, firstOfBody, dif_pos hfree, dif_pos hfree, ih, hfound]
    dsimp only
    rw [ihRest]
  case case8 =>
    intro free place symbol rest hfree found status hstatus hfound ih
    rw [firstOfBody, firstOfBody, dif_pos hfree, dif_pos hfree, ih, hfound]
    cases status with
    | terminal => rfl
    | nonTerminal => rfl
    | epsilon => exact absurd rfl hstatus
  case case9 =>
    intro free place symbol rest hfree
    rw [firstOfBody, firstOfBody, dif_neg hfree, dif_neg hfree]

theorem first_congr (hterminals : other.terminals = grammar.terminals)
    (hrules : other.rules = grammar.rules) : other.first = grammar.first := by
  have hoccurrences : other.occurrences = grammar.occurrences := by
    unfold occurrences
    rw [hrules]
  funext symbol
  unfold first
  rw [hoccurrences, (firstWithin_congr hterminals hrules).1]

theorem followOfRest_congr (hfirst : other.first = grammar.first) (rest : List String) :
    other.followOfRest rest = grammar.followOfRest rest := by
  induction rest with
  | nil => rfl
  | cons symbol rest ih => rw [followOfRest, followOfRest, hfirst, ih]

theorem followWithin_congr (hstart : other.start? = grammar.start?)
    (hbehind : other.behind = grammar.behind)
    (hrest : other.followOfRest = grammar.followOfRest) :
    (∀ unvisited symbol,
      other.followWithin unvisited symbol = grammar.followWithin unvisited symbol) ∧
    (∀ unvisited symbol occurrences,
      other.followOfOccurrences unvisited symbol occurrences =
        grammar.followOfOccurrences unvisited symbol occurrences) := by
  apply followWithin.mutual_induct grammar
  case case1 =>
    intro unvisited symbol hsymbol ih
    rw [followWithin, followWithin, hstart, hbehind, ih]
  case case2 =>
    intro unvisited symbol hsymbol ih
    rw [followWithin, followWithin, hstart, hbehind, ih]
  case case3 =>
    intro unvisited symbol
    rw [followOfOccurrences, followOfOccurrences]
  case case4 =>
    intro unvisited symbol production rest occurrences direct passed hfound henters _ _ _ ih _ ihLater
    rw [followOfOccurrences, followOfOccurrences, hrest, hfound]
    dsimp only
    rw [dif_pos henters, dif_pos henters]
    ext1
    · dsimp only
      rw [ih, ihLater]
    · dsimp only
      rw [ih, ihLater]
  case case5 =>
    intro unvisited symbol production rest occurrences direct passed hfound henters ih
    rw [followOfOccurrences, followOfOccurrences, hrest, hfound]
    dsimp only
    rw [dif_neg henters, dif_neg henters, ih]

/-- The sets are found from the symbols and the rules alone, so that keeping sets changes none. -/
theorem follow_congr (hnonTerminals : other.nonTerminals = grammar.nonTerminals)
    (hterminals : other.terminals = grammar.terminals) (hrules : other.rules = grammar.rules) :
    other.follow = grammar.follow := by
  have hstart : other.start? = grammar.start? := congrArg List.head? hnonTerminals
  have hbehind : other.behind = grammar.behind := by
    unfold behind
    rw [hrules]
  have hproductions : other.productions = grammar.productions := by
    unfold productions
    rw [hrules]
  have hrest : other.followOfRest = grammar.followOfRest :=
    funext (followOfRest_congr (first_congr hterminals hrules))
  funext symbol
  unfold follow
  rw [hproductions, (followWithin_congr hstart hbehind hrest).1]

theorem lookup_map_self (values : String → SymbolSet) (symbols : List String) :
    (symbols.map fun symbol => (symbol, values symbol)).lookup symbol =
      if symbol ∈ symbols then some (values symbol) else none := by
  induction symbols with
  | nil => rfl
  | cons other symbols ih =>
    rw [List.map_cons, List.lookup_cons, ih]
    by_cases heq : symbol = other
    · subst heq
      simp
    · simp [beq_eq_false_iff_ne.mpr heq, heq]

theorem firstSet?_freeze (written : Grammar) (symbol : String) :
    written.freeze.firstSet? symbol =
      if written.freeze.isNonTerminal symbol then some (written.freeze.first symbol).1
      else none := by
  have hfirst : written.freeze.first = written.terminateStart.first := first_congr rfl rfl
  rw [hfirst]
  simp only [freeze, isNonTerminal_iff]
  exact lookup_map_self (fun symbol => (written.terminateStart.first symbol).1) written.nonTerminals

theorem followSet?_freeze (written : Grammar) (symbol : String) :
    written.freeze.followSet? symbol =
      if written.freeze.isNonTerminal symbol then some (written.freeze.follow symbol) else none := by
  have hfollow : written.freeze.follow = written.terminateStart.follow := follow_congr rfl rfl rfl
  rw [hfollow]
  simp only [freeze, isNonTerminal_iff]
  exact lookup_map_self written.terminateStart.follow written.nonTerminals

end

end Grammar

namespace Draft

/-- One operation on a draft, whether it succeeds or not. -/
inductive Step : Draft → Draft → Prop where
  | declare (draft : Draft) (kind : SymbolKind) (symbol : String) :
      Step draft (draft.declare kind symbol).1
  | beginRule (draft : Draft) (key : String) : Step draft (draft.beginRule key).1
  | appendSymbol (draft : Draft) (symbol : String) : Step draft (draft.appendSymbol symbol).1
  | endRule (draft : Draft) : Step draft draft.endRule
  | freeze (draft : Draft) : Step draft draft.freeze.1
  | feedWord (draft : Draft) (word : String) : Step draft (draft.feedWord word).1
  | clear (draft : Draft) : Step draft draft.clear

/-- The drafts that operations lead to, in any order. -/
def Reachable (draft : Draft) : Prop :=
  ∃ markers, Relation.ReflTransGen Step { markers } draft

/-- What a grammar is known to be in a stage: the key of a rule that is being read takes rules, and a
finished grammar is what the written rules are frozen to. -/
def Suits (grammar : Grammar) : DraftStage → Prop
  | .rules (.inBody (some key) _) => key ∈ grammar.nonTerminals
  | .finished => ∃ written : Grammar, grammar = written.freeze
  | _ => True

structure Sound (draft : Draft) : Prop where
  wellFormed : draft.grammar.WellFormed
  suits : Suits draft.grammar draft.stage

variable {draft : Draft}

theorem grammar_recordRuleless (draft : Draft) :
    draft.recordRuleless.grammar = draft.grammar := by
  unfold recordRuleless
  dsimp only
  split
  · split <;> split <;> rfl
  · split <;> rfl

namespace Sound

variable (h : draft.Sound)
include h

theorem record (fault : GrammarFault) : (draft.record fault).Sound :=
  ⟨h.wellFormed, h.suits⟩

theorem reject (fault : SyntaxFault) : (draft.reject fault).1.Sound :=
  h.record .malformed

protected theorem declare (kind : SymbolKind) (symbol : String) :
    (draft.declare kind symbol).1.Sound := by
  unfold Draft.declare
  split
  · next hstage => exact ⟨h.wellFormed.declare kind symbol, by simp [ok, hstage, Suits]⟩
  · next hstage => exact ⟨h.wellFormed.declare kind symbol, by simp [ok, hstage, Suits]⟩
  · exact h.reject _

protected theorem beginRule (key : String) : (draft.beginRule key).1.Sound := by
  unfold Draft.beginRule
  split
  · split
    · next hkind => exact ⟨h.wellFormed, Grammar.kindOf?_eq_nonTerminal hkind⟩
    · exact ⟨h.wellFormed, trivial⟩
    · exact ⟨h.wellFormed, trivial⟩
  · exact h.reject _

protected theorem appendSymbol (symbol : String) : (draft.appendSymbol symbol).1.Sound := by
  unfold Draft.appendSymbol
  split
  · next key body hstage =>
    have hsuits := h.suits
    rw [hstage] at hsuits
    dsimp only [ok]
    split
    · exact ⟨h.wellFormed, by cases key <;> exact hsuits⟩
    · exact ⟨h.wellFormed, by cases key <;> exact hsuits⟩
  · exact h.reject _

protected theorem endRule : draft.endRule.Sound := by
  unfold Draft.endRule
  split
  · next key body hstage =>
    have hsuits := h.suits
    rw [hstage] at hsuits
    refine ⟨h.wellFormed.addAlternative hsuits ?_, trivial⟩
    split
    · simp
    · next hbody => exact hbody
  · exact ⟨h.wellFormed, trivial⟩
  · exact h

protected theorem enterRules : draft.enterRules.1.Sound := by
  unfold Draft.enterRules
  split
  · exact h.reject _
  · exact ⟨(h.wellFormed.declare .terminal _).declare .terminal _, trivial⟩

protected theorem freeze : draft.freeze.1.Sound := by
  unfold Draft.freeze
  split
  · exact h
  · refine ⟨?_, draft.grammar, ?_⟩
    · dsimp only [ok]
      rw [grammar_recordRuleless]
      exact h.wellFormed.terminateStart.withSets
    · dsimp only [ok]
      rw [grammar_recordRuleless]
      rfl
  · exact h.reject _
  · exact h.reject _

protected theorem feedRuleWord (word : String) {phase : RulePhase} :
    (draft.feedRuleWord word phase).1.Sound := by
  unfold Draft.feedRuleWord
  dsimp only
  split
  · split
    · exact h
    · split
      · exact h.reject _
      · exact ⟨h.wellFormed, trivial⟩
  · split
    · exact h.beginRule _
    · exact h.reject _
  · split
    · exact h.endRule
    · split
      · exact h.reject _
      · exact h.appendSymbol _

protected theorem feedWord (word : String) : (draft.feedWord word).1.Sound := by
  unfold Draft.feedWord
  split
  · exact h
  · have hnext : { draft with position := draft.position + 1 }.Sound := ⟨h.wellFormed, h.suits⟩
    dsimp only
    split
    · exact hnext
    · split
      · exact hnext.freeze
      · split
        · split
          · exact ⟨h.wellFormed, trivial⟩
          · exact hnext.declare _ _
        · split
          · exact hnext.enterRules
          · exact hnext.declare _ _
        · exact hnext.feedRuleWord word
        · exact hnext

end Sound

theorem sound_fresh (markers : Markers) : ({ markers } : Draft).Sound :=
  ⟨⟨List.nodup_nil, by simp [Grammar.ruleKeys], by simp, by simp⟩, trivial⟩

theorem Reachable.sound (h : draft.Reachable) : draft.Sound := by
  obtain ⟨markers, h⟩ := h
  induction h with
  | refl => exact sound_fresh markers
  | tail _ hstep ih =>
    cases hstep with
    | declare kind symbol => exact ih.declare kind symbol
    | beginRule key => exact ih.beginRule key
    | appendSymbol symbol => exact ih.appendSymbol symbol
    | endRule => exact ih.endRule
    | freeze => exact ih.freeze
    | feedWord word => exact ih.feedWord word
    | clear => exact sound_fresh _

theorem Reachable.feedWords (h : draft.Reachable) (words : List String) :
    (draft.feedWords words).1.Reachable := by
  induction words generalizing draft with
  | nil => exact h
  | cons word words ih =>
    obtain ⟨markers, hsteps⟩ := h
    have hnext : (draft.feedWord word).1.Reachable := ⟨markers, hsteps.tail (.feedWord draft word)⟩
    unfold Draft.feedWords
    split
    · next heq =>
      rw [heq] at hnext
      exact ih hnext
    · next heq =>
      rw [heq] at hnext
      exact hnext

end Draft

namespace Grammar

/-- The grammar has been frozen: it is the one of a finished draft. -/
def Frozen (grammar : Grammar) : Prop :=
  ∃ draft : Draft, draft.Reachable ∧ draft.grammar? = .ok grammar

theorem frozen_of_feedText {grammar : Grammar} {draft : Draft} (text : String)
    (h : (({} : Draft).feedText text).1 = draft) (hgrammar : draft.grammar? = .ok grammar) :
    grammar.Frozen :=
  ⟨draft, h ▸ Draft.Reachable.feedWords ⟨{}, .refl⟩ _, hgrammar⟩

namespace Frozen

variable {grammar : Grammar} (h : grammar.Frozen)
include h

theorem sound : grammar.WellFormed ∧ ∃ written : Grammar, grammar = written.freeze := by
  obtain ⟨draft, hreachable, hgrammar⟩ := h
  unfold Draft.grammar? at hgrammar
  split at hgrammar
  · simp at hgrammar
  · split at hgrammar
    · next hstage =>
      obtain rfl := Except.ok.inj hgrammar
      have hsuits := hreachable.sound.suits
      rw [hstage] at hsuits
      exact ⟨hreachable.sound.wellFormed, hsuits⟩
    · simp at hgrammar

theorem wellFormed : grammar.WellFormed :=
  h.sound.1

theorem firstSet?_eq (symbol : String) :
    grammar.firstSet? symbol =
      if grammar.isNonTerminal symbol then some (grammar.first symbol).1 else none := by
  obtain ⟨written, rfl⟩ := h.sound.2
  exact written.firstSet?_freeze symbol

theorem followSet?_eq (symbol : String) :
    grammar.followSet? symbol =
      if grammar.isNonTerminal symbol then some (grammar.follow symbol) else none := by
  obtain ⟨written, rfl⟩ := h.sound.2
  exact written.followSet?_freeze symbol

end Frozen

end Grammar

end LineGrammar

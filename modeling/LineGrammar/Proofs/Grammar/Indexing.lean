import LineGrammar.Grammar.Table
import LineGrammar.Proofs.Grammar.Freezing

/-!
# Tables and their maps

The maps of a table say what its lists say (`Table.Indexed`): the kinds are those of the two lists of
symbols, in the order in which they were declared, and the places are those of the rule keys. Then a
table answers as the grammar does that is left without the maps (`Table.grammar`), and whatever
changes a table changes that grammar alike and keeps the maps right.
-/

namespace LineGrammar

open Grammar

namespace Table

/-- The maps of a table say what its lists say. -/
structure Indexed (table : Table) : Prop where
  nodup_kinds : (table.kinds.map Prod.fst).Nodup
  terminals_eq : (table.kinds.filter (·.2 = .terminal)).map Prod.fst = table.terminals
  nonTerminals_eq : (table.kinds.filter (·.2 = .nonTerminal)).map Prod.fst = table.nonTerminals
  nodup_rules : (table.rules.map Prod.fst).Nodup
  ruleIndex_eq : table.ruleIndex = (table.rules.map Prod.fst).zipIdx

theorem indexed_empty : ({} : Table).Indexed :=
  ⟨List.nodup_nil, rfl, rfl, List.nodup_nil, rfl⟩

/-! ## Entries of rules -/

section

variable {rules : List (String × List Alternative)} {key : String} {index : Nat}
  {alternatives : List Alternative} {alternative : Alternative}

/-- The rules with another list of alternatives in the entry of a key. -/
def changeEntry (key : String) (change : List Alternative → List Alternative)
    (rules : List (String × List Alternative)) : List (String × List Alternative) :=
  rules.map fun (other, others) => (other, if other = key then change others else others)

theorem changeEntry_cons (change : List Alternative → List Alternative)
    (entry : String × List Alternative) (rules : List (String × List Alternative)) :
    changeEntry key change (entry :: rules) =
      (entry.1, if entry.1 = key then change entry.2 else entry.2) :: changeEntry key change rules :=
  rfl

theorem changeEntry_append (change : List Alternative → List Alternative)
    (rules others : List (String × List Alternative)) :
    changeEntry key change (rules ++ others) =
      changeEntry key change rules ++ changeEntry key change others :=
  List.map_append

theorem changeEntry_eq_self (hkey : key ∉ rules.map Prod.fst)
    (change : List Alternative → List Alternative) : changeEntry key change rules = rules := by
  unfold changeEntry
  conv_rhs => rw [← List.map_id rules]
  refine List.map_congr_left fun entry hentry => ?_
  have hne : entry.1 ≠ key := by
    rintro rfl
    exact hkey (List.mem_map.mpr ⟨entry, hentry, rfl⟩)
  simp [hne]

theorem modify_eq_changeEntry (hrules : (rules.map Prod.fst).Nodup)
    (hentry : rules[index]? = some (key, alternatives))
    (change : List Alternative → List Alternative) :
    (rules.modify index fun (other, others) => (other, change others)) =
      changeEntry key change rules := by
  refine List.ext_getElem? fun place => ?_
  unfold changeEntry
  rw [List.getElem?_modify, List.getElem?_map]
  rcases hplace : rules[place]? with - | ⟨other, others⟩
  · rfl
  · obtain ⟨hlt, -⟩ := List.getElem?_eq_some_iff.mp hplace
    have hsame : index = place ↔ other = key := by
      rw [eq_comm, ← List.getElem?_inj (by simpa using hlt) hrules]
      simp [hplace, hentry]
    by_cases heq : index = place
    · simp [heq, hsame.mp heq]
    · simp [heq, mt hsame.mpr heq]

theorem addAlternativeTo_of_not_mem (hkey : key ∉ rules.map Prod.fst) :
    addAlternativeTo key alternative rules = rules ++ [(key, [alternative])] := by
  induction rules with
  | nil => rfl
  | cons entry rules ih =>
    obtain ⟨other, others⟩ := entry
    obtain ⟨hne, hrest⟩ := not_or.mp (mt List.mem_cons.mpr hkey)
    rw [addAlternativeTo, if_neg (Ne.symm hne), ih hrest]
    rfl

theorem addAlternativeTo_of_mem (hrules : (rules.map Prod.fst).Nodup)
    (hkey : key ∈ rules.map Prod.fst) :
    addAlternativeTo key alternative rules = changeEntry key (· ++ [alternative]) rules := by
  induction rules with
  | nil => simp at hkey
  | cons entry rules ih =>
    obtain ⟨other, others⟩ := entry
    obtain ⟨hfresh, hrest⟩ := List.nodup_cons.mp hrules
    unfold addAlternativeTo
    split
    · next heq =>
      subst heq
      rw [changeEntry_cons, changeEntry_eq_self hfresh, if_pos rfl]
    · next hne =>
      rw [ih hrest ((List.mem_cons.mp hkey).resolve_left (Ne.symm hne)), changeEntry_cons,
        if_neg hne]

end

namespace Indexed

variable {table : Table} (h : table.Indexed) {symbol key : String} {index : Nat}
include h

/-! ## Answers -/

theorem kindOf?_eq_some_iff {kind : SymbolKind} :
    table.kindOf? symbol = some kind ↔ (symbol, kind) ∈ table.kinds :=
  lookup_eq_some_iff_mem h.nodup_kinds

theorem mem_terminals_iff : symbol ∈ table.terminals ↔ table.kindOf? symbol = some .terminal := by
  rw [h.kindOf?_eq_some_iff, ← h.terminals_eq]
  simp

theorem mem_nonTerminals_iff :
    symbol ∈ table.nonTerminals ↔ table.kindOf? symbol = some .nonTerminal := by
  rw [h.kindOf?_eq_some_iff, ← h.nonTerminals_eq]
  simp

theorem kindOf?_eq : table.kindOf? symbol = table.grammar.kindOf? symbol := by
  have hterminal : table.grammar.isTerminal symbol = true ↔
      table.kindOf? symbol = some .terminal := isTerminal_iff.trans h.mem_terminals_iff
  have hnonTerminal : table.grammar.isNonTerminal symbol = true ↔
      table.kindOf? symbol = some .nonTerminal := isNonTerminal_iff.trans h.mem_nonTerminals_iff
  unfold Grammar.kindOf?
  rcases hkind : table.kindOf? symbol with - | kind
  · simp [hterminal, hnonTerminal, hkind]
  · cases kind <;> simp [hterminal, hnonTerminal, hkind]

theorem lookup_ruleIndex_eq_some_iff : table.ruleIndex.lookup key = some index ↔
    ∃ alternatives, table.rules[index]? = some (key, alternatives) := by
  have hnodup : (table.ruleIndex.map Prod.fst).Nodup := by
    rw [h.ruleIndex_eq, List.zipIdx_map_fst]
    exact h.nodup_rules
  rw [lookup_eq_some_iff_mem hnodup, h.ruleIndex_eq, List.mem_zipIdx_iff_getElem?]
  simp

theorem lookup_ruleIndex_eq_none_iff :
    table.ruleIndex.lookup key = none ↔ key ∉ table.rules.map Prod.fst := by
  rw [lookup_eq_none_iff_not_mem, h.ruleIndex_eq, List.zipIdx_map_fst]

theorem lookup_rules {alternatives : List Alternative}
    (hentry : table.rules[index]? = some (key, alternatives)) :
    table.rules.lookup key = some alternatives :=
  (lookup_eq_some_iff_mem h.nodup_rules).mpr (List.mem_of_getElem? hentry)

theorem hasRules_eq : table.hasRules symbol = table.grammar.hasRules symbol := by
  unfold Table.hasRules Grammar.hasRules Table.grammar
  rcases hindex : table.ruleIndex.lookup symbol with - | index
  · rw [lookup_eq_none_iff_not_mem.mpr (h.lookup_ruleIndex_eq_none_iff.mp hindex)]
    rfl
  · obtain ⟨alternatives, hentry⟩ := h.lookup_ruleIndex_eq_some_iff.mp hindex
    rw [h.lookup_rules hentry]
    rfl

theorem alternatives_eq : table.alternatives symbol = table.grammar.alternatives symbol := by
  unfold Table.alternatives Grammar.alternatives Table.grammar
  split
  · next index hindex =>
    obtain ⟨alternatives, hentry⟩ := h.lookup_ruleIndex_eq_some_iff.mp hindex
    rw [h.lookup_rules hentry, hentry]
    rfl
  · next hindex =>
    rw [lookup_eq_none_iff_not_mem.mpr (h.lookup_ruleIndex_eq_none_iff.mp hindex)]
    rfl

/-! ## Sets -/

theorem first_eq : table.first = table.grammar.first := by
  unfold Table.first
  exact first_congr h.terminals_eq rfl

theorem follow_eq : table.follow = table.grammar.follow := by
  unfold Table.follow
  exact follow_congr rfl h.terminals_eq rfl

theorem grammar_computeSets : table.computeSets.grammar = table.grammar.withSets := by
  unfold computeSets withSets
  rw [h.first_eq, h.follow_eq]
  rfl

protected theorem computeSets : table.computeSets.Indexed :=
  ⟨h.nodup_kinds, h.terminals_eq, h.nonTerminals_eq, h.nodup_rules, h.ruleIndex_eq⟩

/-! ## Changes -/

theorem modifyRule (index : Nat) (change : List Alternative → List Alternative) :
    (table.modifyRule index change).Indexed := by
  have hkeys : (table.modifyRule index change).rules.map Prod.fst = table.rules.map Prod.fst := by
    refine List.ext_getElem? fun place => ?_
    simp only [Table.modifyRule, List.getElem?_map, List.getElem?_modify]
    rcases table.rules[place]? with - | entry
    · rfl
    · by_cases heq : index = place <;> simp [heq]
  exact ⟨h.nodup_kinds, h.terminals_eq, h.nonTerminals_eq, hkeys ▸ h.nodup_rules,
    h.ruleIndex_eq.trans (congrArg List.zipIdx hkeys.symm)⟩

theorem rules_modifyRule {alternatives : List Alternative}
    (hentry : table.rules[index]? = some (key, alternatives))
    (change : List Alternative → List Alternative) :
    (table.modifyRule index change).rules = changeEntry key change table.rules :=
  modify_eq_changeEntry h.nodup_rules hentry change

theorem grammar_declare (kind : SymbolKind) (symbol : String) :
    (table.declare kind symbol).grammar = table.grammar.declare kind symbol := by
  unfold Table.declare Grammar.declare
  rw [h.kindOf?_eq]
  split
  · rfl
  · cases kind <;> rfl

protected theorem declare (kind : SymbolKind) (symbol : String) :
    (table.declare kind symbol).Indexed := by
  unfold Table.declare
  split
  · exact h
  · next hfresh =>
    have hnodup : ((table.kinds ++ [(symbol, kind)]).map Prod.fst).Nodup := by
      rw [List.map_append, List.nodup_append']
      refine ⟨h.nodup_kinds, List.nodup_singleton _, List.disjoint_singleton.mpr ?_⟩
      exact lookup_eq_none_iff_not_mem.mp (Option.not_isSome_iff_eq_none.mp hfresh)
    cases kind with
    | terminal =>
      refine ⟨hnodup, ?_, ?_, h.nodup_rules, h.ruleIndex_eq⟩
      · simp [List.filter_append, ← h.terminals_eq]
      · simp [List.filter_append, ← h.nonTerminals_eq]
    | nonTerminal =>
      refine ⟨hnodup, ?_, ?_, h.nodup_rules, h.ruleIndex_eq⟩
      · simp [List.filter_append, ← h.terminals_eq]
      · simp [List.filter_append, ← h.nonTerminals_eq]

theorem addKey (hkey : key ∉ table.rules.map Prod.fst) : (table.addKey key).Indexed := by
  refine ⟨h.nodup_kinds, h.terminals_eq, h.nonTerminals_eq, ?_, ?_⟩
  · simp only [Table.addKey, List.map_append, List.nodup_append']
    exact ⟨h.nodup_rules, List.nodup_singleton _, List.disjoint_singleton.mpr hkey⟩
  · simp only [Table.addKey, List.map_append, List.zipIdx_append, h.ruleIndex_eq]
    simp

theorem rules_pushAlternative (key : String) (alternative : Alternative) :
    (table.pushAlternative key alternative).rules =
      addAlternativeTo key alternative table.rules := by
  unfold Table.pushAlternative
  split
  · next index hindex =>
    obtain ⟨alternatives, hentry⟩ := h.lookup_ruleIndex_eq_some_iff.mp hindex
    have hkey : key ∈ table.rules.map Prod.fst :=
      List.mem_map.mpr ⟨_, List.mem_of_getElem? hentry, rfl⟩
    rw [addAlternativeTo_of_mem h.nodup_rules hkey]
    exact h.rules_modifyRule hentry _
  · next hindex =>
    have hkey := h.lookup_ruleIndex_eq_none_iff.mp hindex
    have hentry : (table.addKey key).rules[table.rules.length]? = some (key, []) :=
      List.getElem?_concat_length
    rw [addAlternativeTo_of_not_mem hkey]
    rw [(h.addKey hkey).rules_modifyRule hentry, Table.addKey, changeEntry_append,
      changeEntry_eq_self hkey, changeEntry_cons, if_pos rfl]
    rfl

theorem grammar_pushAlternative (key : String) (alternative : Alternative) :
    (table.pushAlternative key alternative).grammar =
      table.grammar.addAlternative key alternative := by
  have hrules := h.rules_pushAlternative key alternative
  unfold Table.pushAlternative at hrules ⊢
  split at hrules <;> exact congrArg (fun rules => { table.grammar with rules }) hrules

protected theorem pushAlternative (key : String) (alternative : Alternative) :
    (table.pushAlternative key alternative).Indexed := by
  unfold Table.pushAlternative
  split
  · exact h.modifyRule _ _
  · next hindex => exact (h.addKey (h.lookup_ruleIndex_eq_none_iff.mp hindex)).modifyRule _ _

theorem rules_terminateStart :
    table.terminateStart.rules = table.grammar.terminateStart.rules := by
  rcases hstart : table.start? with - | start
  · have hnone : table.grammar.start? = none := hstart
    unfold Table.terminateStart Grammar.terminateStart
    rw [hstart, hnone]
    simp only [reduceCtorEq, if_false]
    exact (List.map_id _).symm
  · have hchange : table.grammar.terminateStart.rules =
        changeEntry start (·.map terminated) table.rules := by
      have hsome : table.grammar.start? = some start := hstart
      unfold Grammar.terminateStart changeEntry
      simp only [hsome, Option.some.injEq]
      rfl
    rw [hchange]
    unfold Table.terminateStart
    rw [hstart]
    dsimp only
    split
    · next index hindex =>
      obtain ⟨alternatives, hentry⟩ := h.lookup_ruleIndex_eq_some_iff.mp hindex
      exact h.rules_modifyRule hentry _
    · next hindex => exact (changeEntry_eq_self (h.lookup_ruleIndex_eq_none_iff.mp hindex) _).symm

theorem grammar_terminateStart : table.terminateStart.grammar = table.grammar.terminateStart := by
  have hrules := h.rules_terminateStart
  unfold Table.terminateStart at hrules ⊢
  split at hrules
  · exact congrArg (fun rules => { table.grammar with rules }) hrules
  · split at hrules <;> exact congrArg (fun rules => { table.grammar with rules }) hrules

protected theorem terminateStart : table.terminateStart.Indexed := by
  unfold Table.terminateStart
  split
  · exact h
  · split
    · exact h.modifyRule _ _
    · exact h

end Indexed

end Table

end LineGrammar

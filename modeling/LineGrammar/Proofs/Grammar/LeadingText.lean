import LineGrammar.Proofs.Grammar.Leading
import LineGrammar.Proofs.Grammar.Reading

/-!
# Grammar texts with a start symbol in front

`Markers.lead` puts a fresh start symbol in front of the words of a grammar text: it is declared
before all others, and its rule comes before all others. Word by word the two texts make drafts that
differ in the fresh symbol and its rule only (`Draft.feedWords_lead`). So the longer text is read to
its end as well, and gives the grammar of the other one with the fresh symbol in front
(`Draft.Parts.exists_feedWords_lead`).
-/

namespace LineGrammar

/-- Changes the words behind the first group of words. -/
def Markers.behindGroup (markers : Markers) (change : List String → List String) :
    List String → List String
  | [] => []
  | word :: words =>
    if word = markers.endGroup then word :: change words
    else word :: markers.behindGroup change words

/-- The rule that writes a fresh symbol as the start symbol. -/
def Markers.leadingRule (markers : Markers) (fresh start : String) : List String :=
  [fresh, markers.separator, start, markers.endGroup]

/-- The words of a grammar text with a fresh start symbol in front, which is declared first and has
the first of the rules. -/
def Markers.lead (markers : Markers) (fresh start : String) (words : List String) : List String :=
  fresh :: markers.behindGroup (markers.behindGroup (markers.leadingRule fresh start ++ ·)) words

theorem Markers.behindGroup_append {markers : Markers} {change : List String → List String}
    {names rest : List String} (h : markers.endGroup ∉ names) :
    markers.behindGroup change (names ++ markers.endGroup :: rest) =
      names ++ markers.endGroup :: change rest := by
  induction names with
  | nil => exact if_pos rfl
  | cons name names ih =>
    obtain ⟨hname, hnames⟩ := not_or.mp (mt List.mem_cons.mpr h)
    rw [List.cons_append, behindGroup, if_neg (Ne.symm hname), ih hnames]
    rfl

namespace Grammar

variable {grammar : Grammar} {fresh symbol : String} {front : List (String × List Alternative)}

theorem kindOf?_withFront (hne : symbol ≠ fresh) :
    (grammar.withFront fresh front).kindOf? symbol = grammar.kindOf? symbol := by
  have hnonTerminal : (grammar.withFront fresh front).isNonTerminal symbol =
      grammar.isNonTerminal symbol := by
    rw [isNonTerminal, isNonTerminal, withFront, List.contains_cons, beq_eq_false_iff_ne.mpr hne,
      Bool.false_or]
  rw [kindOf?, kindOf?, hnonTerminal]
  rfl

theorem kindOf?_withFront_self (h : fresh ∉ grammar.terminals) :
    (grammar.withFront fresh front).kindOf? fresh = some .nonTerminal := by
  have hterminal : (grammar.withFront fresh front).isTerminal fresh = false :=
    Bool.eq_false_iff.mpr (mt isTerminal_iff.mp h)
  have hnonTerminal : (grammar.withFront fresh front).isNonTerminal fresh = true :=
    isNonTerminal_iff.mpr List.mem_cons_self
  rw [kindOf?, hterminal, hnonTerminal]
  rfl

theorem declare_withFront (kind : SymbolKind) (hne : symbol ≠ fresh) :
    (grammar.withFront fresh front).declare kind symbol =
      (grammar.declare kind symbol).withFront fresh front := by
  unfold declare
  rw [kindOf?_withFront hne]
  split
  · rfl
  · cases kind <;> rfl

theorem addAlternativeTo_append {key : String} (hfront : ∀ entry ∈ front, entry.1 ≠ key)
    (alternative : Alternative) (rules : List (String × List Alternative)) :
    addAlternativeTo key alternative (front ++ rules) =
      front ++ addAlternativeTo key alternative rules := by
  induction front with
  | nil => rfl
  | cons entry front ih =>
    obtain ⟨hentry, hrest⟩ := List.forall_mem_cons.mp hfront
    rw [List.cons_append, List.cons_append, addAlternativeTo, if_neg hentry, ih hrest]

end Grammar

namespace Draft

/-- The draft with a symbol and rules in front, which have taken some words. -/
def lead (draft : Draft) (fresh : String) (front : List (String × List Alternative))
    (shift : Nat) : Draft :=
  { draft with
    grammar := draft.grammar.withFront fresh front
    position := shift + draft.position }

/-- The key and the symbols of the rule that is being read are others. -/
def Spares (symbol : String) : DraftStage → Prop
  | .rules (.expectSeparator key) => key ≠ symbol
  | .rules (.inBody key body) => key ≠ some symbol ∧ symbol ∉ body
  | _ => True

variable {draft next : Draft} {fresh word key : String}
  {front : List (String × List Alternative)} {shift : Nat} {words : List String}

theorem declare_lead {kind : SymbolKind} (hword : word ≠ fresh)
    (h : draft.declare kind word = (next, .ok ())) :
    (draft.lead fresh front shift).declare kind word = (next.lead fresh front shift, .ok ()) := by
  obtain ⟨markers, grammar, stage, faults, position⟩ := draft
  cases stage with
  | nonTerminals | terminals =>
    obtain ⟨rfl, -⟩ := Prod.mk.inj h
    simp only [Draft.declare, ok, lead, Grammar.declare_withFront kind hword]
  | rules | finished => cases (Prod.mk.inj h).2

theorem enterRules_lead (hend : endOfInput ≠ fresh) (hempty : emptyText ≠ fresh)
    (h : draft.enterRules = (next, .ok ())) :
    (draft.lead fresh front shift).enterRules = (next.lead fresh front shift, .ok ()) := by
  unfold enterRules at h ⊢
  split at h
  · cases (Prod.mk.inj h).2
  · next hdeclared =>
    obtain ⟨rfl, -⟩ := Prod.mk.inj h
    rw [if_neg]
    · simp only [ok, lead, Grammar.declare_withFront .terminal hend,
        Grammar.declare_withFront .terminal hempty]
    · rintro (hterminals | hnonTerminals)
      · exact hdeclared (.inl hterminals)
      · exact List.cons_ne_nil _ _ hnonTerminals

theorem beginRule_lead (hkey : key ≠ fresh) (h : draft.beginRule key = (next, .ok ())) :
    (draft.lead fresh front shift).beginRule key = (next.lead fresh front shift, .ok ()) := by
  obtain ⟨markers, grammar, stage, faults, position⟩ := draft
  cases stage with
  | rules phase =>
    have hkind : (grammar.withFront fresh front).kindOf? key = grammar.kindOf? key :=
      Grammar.kindOf?_withFront hkey
    simp only [beginRule, lead, hkind] at h ⊢
    split at h <;> obtain ⟨rfl, -⟩ := Prod.mk.inj h <;> rfl
  | nonTerminals | terminals | finished => cases (Prod.mk.inj h).2

theorem appendSymbol_lead (hword : word ≠ fresh) (h : draft.appendSymbol word = (next, .ok ())) :
    (draft.lead fresh front shift).appendSymbol word = (next.lead fresh front shift, .ok ()) := by
  obtain ⟨markers, grammar, stage, faults, position⟩ := draft
  rcases stage with _ | _ | (_ | _ | ⟨key, body⟩) | _
  case rules.inBody =>
    have hkind : (grammar.withFront fresh front).kindOf? word = grammar.kindOf? word :=
      Grammar.kindOf?_withFront hword
    simp only [appendSymbol, lead, hkind] at h ⊢
    obtain ⟨rfl, -⟩ := Prod.mk.inj h
    split <;> rfl
  all_goals cases (Prod.mk.inj h).2

theorem endRule_lead (hfront : ∀ entry ∈ front, entry.1 = fresh)
    (hspares : Spares fresh draft.stage) :
    (draft.lead fresh front shift).endRule = draft.endRule.lead fresh front shift := by
  obtain ⟨markers, grammar, stage, faults, position⟩ := draft
  rcases stage with _ | _ | (_ | _ | ⟨_ | key, body⟩) | _
  case rules.inBody.some =>
    have hkey : ∀ entry ∈ front, entry.1 ≠ key := by
      rintro entry hentry rfl
      exact hspares.1 (congrArg some (hfront entry hentry))
    simp only [endRule, lead, Grammar.withFront, Grammar.addAlternative,
      Grammar.addAlternativeTo_append hkey]
  all_goals rfl

theorem feedRuleWord_lead (hfront : ∀ entry ∈ front, entry.1 = fresh) (hword : word ≠ fresh)
    {phase : RulePhase} (hspares : Spares fresh draft.stage) (hstage : draft.stage = .rules phase)
    (h : draft.feedRuleWord word phase = (next, .ok ())) :
    (draft.lead fresh front shift).feedRuleWord word phase =
      (next.lead fresh front shift, .ok ()) := by
  unfold feedRuleWord at h ⊢
  cases phase with
  | expectKey =>
    dsimp only at h ⊢
    split at h
    · next hends =>
      obtain ⟨rfl, -⟩ := Prod.mk.inj h
      exact if_pos hends
    · next hends =>
      refine (if_neg hends).trans ?_
      split at h
      · cases (Prod.mk.inj h).2
      · next hseparates =>
        obtain ⟨rfl, -⟩ := Prod.mk.inj h
        exact if_neg hseparates
  | expectSeparator key =>
    dsimp only at h ⊢
    split at h
    · next hseparates =>
      rw [hstage] at hspares
      exact (if_pos hseparates).trans (beginRule_lead hspares h)
    · cases (Prod.mk.inj h).2
  | inBody key body =>
    dsimp only at h ⊢
    split at h
    · next hends =>
      obtain ⟨rfl, -⟩ := Prod.mk.inj h
      exact (if_pos hends).trans (congrArg ok (endRule_lead hfront hspares))
    · next hends =>
      refine (if_neg hends).trans ?_
      split at h
      · cases (Prod.mk.inj h).2
      · next hseparates =>
        exact (if_neg hseparates).trans (appendSymbol_lead hword h)

theorem feedWord_lead (hfront : ∀ entry ∈ front, entry.1 = fresh) (hend : endOfInput ≠ fresh)
    (hempty : emptyText ≠ fresh) (hspares : Spares fresh draft.stage) (hword : word ≠ fresh)
    (hgrammar : word ≠ draft.markers.endGrammar) (h : draft.feedWord word = (next, .ok ())) :
    (draft.lead fresh front shift).feedWord word = (next.lead fresh front shift, .ok ()) := by
  cases hhalted : draft.isHalted with
  | true =>
    rw [feedWord, if_pos hhalted] at h
    cases (Prod.mk.inj h).2
  | false =>
    have hled : (draft.lead fresh front shift).isHalted = false := hhalted
    rw [feedWord_eq hhalted hgrammar] at h
    rw [feedWord_eq hled hgrammar]
    obtain ⟨markers, grammar, stage, faults, position⟩ := draft
    cases stage with
    | nonTerminals =>
      dsimp only [lead] at h ⊢
      split at h
      · next hends =>
        obtain ⟨rfl, -⟩ := Prod.mk.inj h
        exact if_pos hends
      · next hends => exact (if_neg hends).trans (declare_lead hword h)
    | terminals =>
      dsimp only [lead] at h ⊢
      split at h
      · next hends => exact (if_pos hends).trans (enterRules_lead hend hempty h)
      · next hends => exact (if_neg hends).trans (declare_lead hword h)
    | rules phase =>
      have hadvanced : (advance ⟨markers, grammar, .rules phase, faults, position⟩).feedRuleWord
          word phase = (next, .ok ()) := h
      refine feedRuleWord_lead hfront hword ?_ rfl hadvanced
      exact hspares
    | finished =>
      obtain ⟨rfl, -⟩ := Prod.mk.inj h
      rfl

/-! ## Where a symbol does not occur -/

/-- The symbol occurs nowhere in the draft. -/
structure Without (draft : Draft) (symbol : String) : Prop where
  not_nonTerminal : symbol ∉ draft.grammar.nonTerminals
  not_terminal : symbol ∉ draft.grammar.terminals
  not_mem : ∀ entry ∈ draft.grammar.rules, ∀ body ∈ entry.2, symbol ∉ body
  spares : Spares symbol draft.stage

namespace Without

variable {symbol : String} (h : draft.Without symbol)
include h

theorem advance : draft.advance.Without symbol :=
  ⟨h.not_nonTerminal, h.not_terminal, h.not_mem, h.spares⟩

theorem ofStage {stage : DraftStage} (hspares : Spares symbol stage) :
    { draft with stage }.Without symbol :=
  ⟨h.not_nonTerminal, h.not_terminal, h.not_mem, hspares⟩

theorem record (fault : GrammarFault) : (draft.record fault).Without symbol :=
  ⟨h.not_nonTerminal, h.not_terminal, h.not_mem, h.spares⟩

theorem declareSymbol (kind : SymbolKind) (hword : word ≠ symbol) :
    { draft with grammar := draft.grammar.declare kind word }.Without symbol := by
  unfold Grammar.declare
  split
  · exact h
  · cases kind with
    | terminal =>
      exact ⟨h.not_nonTerminal, by simp [h.not_terminal, hword.symm], h.not_mem, h.spares⟩
    | nonTerminal =>
      exact ⟨by simp [h.not_nonTerminal, hword.symm], h.not_terminal, h.not_mem, h.spares⟩

theorem declare (kind : SymbolKind) (hword : word ≠ symbol) :
    (draft.declare kind word).1.Without symbol := by
  unfold Draft.declare
  split
  · exact h.declareSymbol kind hword
  · exact h.declareSymbol kind hword
  · exact h.record _

theorem enterRules (hend : endOfInput ≠ symbol) (hempty : emptyText ≠ symbol) :
    draft.enterRules.1.Without symbol := by
  unfold Draft.enterRules
  split
  · exact h.record _
  · exact ((h.declareSymbol .terminal hend).declareSymbol .terminal hempty).ofStage trivial

theorem beginRule (hkey : key ≠ symbol) : (draft.beginRule key).1.Without symbol := by
  have hsome : some key ≠ some symbol := fun heq => hkey (Option.some.inj heq)
  unfold Draft.beginRule
  split
  · split
    · exact h.ofStage ⟨hsome, List.not_mem_nil⟩
    · exact (h.record _).ofStage ⟨by simp, List.not_mem_nil⟩
    · exact (h.record _).ofStage ⟨by simp, List.not_mem_nil⟩
  · exact h.record _

theorem appendSymbol (hword : word ≠ symbol) : (draft.appendSymbol word).1.Without symbol := by
  unfold Draft.appendSymbol
  split
  · next key body hstage =>
    have hspares := h.spares
    rw [hstage] at hspares
    have hbody : symbol ∉ body ++ [word] := by simp [hspares.2, hword.symm]
    dsimp only [ok]
    split
    · exact h.ofStage ⟨hspares.1, hbody⟩
    · exact (h.record _).ofStage ⟨hspares.1, hbody⟩
  · exact h.record _

theorem endRule (hempty : emptyText ≠ symbol) : draft.endRule.Without symbol := by
  unfold Draft.endRule
  split
  · next key body hstage =>
    have hspares := h.spares
    rw [hstage] at hspares
    refine ⟨h.not_nonTerminal, h.not_terminal, fun entry hentry other hother => ?_, trivial⟩
    rcases Grammar.mem_addAlternativeTo hentry hother with rfl | ⟨before, hbefore, hmem⟩
    · split
      · exact fun hmem => hempty (List.mem_singleton.mp hmem).symm
      · exact hspares.2
    · exact h.not_mem before hbefore other hmem
  · exact h.ofStage trivial
  · exact h

theorem feedRuleWord (hempty : emptyText ≠ symbol) (hword : word ≠ symbol) {phase : RulePhase}
    (hstage : draft.stage = .rules phase) : (draft.feedRuleWord word phase).1.Without symbol := by
  unfold Draft.feedRuleWord
  cases phase with
  | expectKey =>
    dsimp only
    split
    · exact h
    · split
      · exact h.record _
      · exact h.ofStage hword
  | expectSeparator key =>
    have hspares := h.spares
    rw [hstage] at hspares
    dsimp only
    split
    · exact h.beginRule hspares
    · exact h.record _
  | inBody key body =>
    dsimp only
    split
    · exact h.endRule hempty
    · split
      · exact h.record _
      · exact h.appendSymbol hword

theorem feedWord (hend : endOfInput ≠ symbol) (hempty : emptyText ≠ symbol)
    (hword : word ≠ symbol) (hgrammar : word ≠ draft.markers.endGrammar) :
    (draft.feedWord word).1.Without symbol := by
  cases hhalted : draft.isHalted with
  | true =>
    rw [Draft.feedWord, if_pos hhalted]
    exact h
  | false =>
    rw [feedWord_eq hhalted hgrammar]
    split
    · split
      · exact h.advance.ofStage trivial
      · exact h.advance.declare _ hword
    · split
      · exact h.advance.enterRules hend hempty
      · exact h.advance.declare _ hword
    · next hstage => exact h.advance.feedRuleWord hempty hword hstage
    · exact h.advance

end Without

/-! ## Both texts -/

theorem feedWords_lead (hfront : ∀ entry ∈ front, entry.1 = fresh) (hend : endOfInput ≠ fresh)
    (hempty : emptyText ≠ fresh) (hwithout : draft.Without fresh) (hfresh : fresh ∉ words)
    (hgrammar : draft.markers.endGrammar ∉ words) (h : draft.feedWords words = (next, .ok ())) :
    (draft.lead fresh front shift).feedWords words = (next.lead fresh front shift, .ok ()) ∧
      next.Without fresh := by
  induction words generalizing draft with
  | nil =>
    obtain ⟨rfl, -⟩ := Prod.mk.inj h
    exact ⟨rfl, hwithout⟩
  | cons word words ih =>
    obtain ⟨after, hafter, hrest⟩ := feedWords_cons.mp h
    have hword : word ≠ fresh := fun heq => hfresh (heq ▸ List.mem_cons_self)
    have hother : word ≠ draft.markers.endGrammar := fun heq => hgrammar (heq ▸ List.mem_cons_self)
    have hkept : after.Without fresh := by
      have hnext := hwithout.feedWord hend hempty hword hother
      rwa [hafter] at hnext
    have hmarkers := markers_feedWord hother hafter
    obtain ⟨hled, hnext⟩ := ih hkept (fun hmem => hfresh (List.mem_cons_of_mem _ hmem))
      (by rw [hmarkers]; exact fun hmem => hgrammar (List.mem_cons_of_mem _ hmem)) hrest
    exact ⟨feedWords_cons.mpr
      ⟨_, feedWord_lead hfront hend hempty hwithout.spares hword hother hafter, hled⟩, hnext⟩

theorem feedWords_leadingRule {markers : Markers} {key symbol : String}
    (hmarkers : draft.markers = markers) (hhalted : draft.isHalted = false)
    (hstage : draft.stage = .rules .expectKey)
    (hkey : draft.grammar.kindOf? key = some .nonTerminal)
    (hsymbol : (draft.grammar.kindOf? symbol).isSome = true)
    (hgroup : markers.endGroup ∉ [key, symbol, markers.endGrammar])
    (hgrammar : markers.endGrammar ∉ [key, symbol, markers.separator])
    (hseparator : markers.separator ∉ [key, symbol]) :
    draft.feedWords (markers.leadingRule key symbol) =
      ({ draft with
        grammar := draft.grammar.addAlternative key [symbol]
        position := draft.position + 4 }, .ok ()) := by
  subst hmarkers
  obtain ⟨markers, grammar, stage, faults, position⟩ := draft
  obtain rfl : stage = .rules .expectKey := hstage
  simp only [List.mem_cons, List.not_mem_nil, or_false, not_or] at hgroup hgrammar hseparator
  obtain ⟨hgroupKey, hgroupSymbol, hgroupGrammar⟩ := hgroup
  obtain ⟨hgrammarKey, hgrammarSymbol, hgrammarSeparator⟩ := hgrammar
  obtain ⟨hseparatorKey, hseparatorSymbol⟩ := hseparator
  have hnot : ∀ stage position, isHalted ⟨markers, grammar, stage, faults, position⟩ = false :=
    fun _ _ => hhalted
  have hfirst : feedWord ⟨markers, grammar, .rules .expectKey, faults, position⟩ key =
      (⟨markers, grammar, .rules (.expectSeparator key), faults, position + 1⟩, .ok ()) := by
    rw [feedWord_eq (hnot _ _) (Ne.symm hgrammarKey)]
    simp [feedRuleWord, advance, ok, Ne.symm hgroupKey, Ne.symm hseparatorKey]
  have hsecond : feedWord ⟨markers, grammar, .rules (.expectSeparator key), faults, position + 1⟩
      markers.separator =
        (⟨markers, grammar, .rules (.inBody (some key) []), faults, position + 2⟩, .ok ()) := by
    rw [feedWord_eq (hnot _ _) (Ne.symm hgrammarSeparator)]
    simp [feedRuleWord, advance, ok, beginRule, hkey]
  have hthird : feedWord ⟨markers, grammar, .rules (.inBody (some key) []), faults, position + 2⟩
      symbol =
        (⟨markers, grammar, .rules (.inBody (some key) [symbol]), faults, position + 3⟩, .ok ()) := by
    rw [feedWord_eq (hnot _ _) (Ne.symm hgrammarSymbol)]
    simp [feedRuleWord, advance, ok, appendSymbol, hsymbol, Ne.symm hgroupSymbol,
      Ne.symm hseparatorSymbol]
  have hfourth : feedWord
      ⟨markers, grammar, .rules (.inBody (some key) [symbol]), faults, position + 3⟩
      markers.endGroup =
        (⟨markers, grammar.addAlternative key [symbol], .rules .expectKey, faults, position + 4⟩,
          .ok ()) := by
    rw [feedWord_eq (hnot _ _) hgroupGrammar]
    simp [feedRuleWord, advance, ok, endRule]
  exact feedWords_cons.mpr ⟨_, hfirst, feedWords_cons.mpr ⟨_, hsecond, feedWords_cons.mpr
    ⟨_, hthird, feedWords_cons.mpr ⟨_, hfourth, rfl⟩⟩⟩⟩

theorem feedWord_fresh {markers : Markers} (hgrammar : fresh ≠ markers.endGrammar)
    (hgroup : fresh ≠ markers.endGroup) :
    ({ markers } : Draft).feedWord fresh = (({ markers } : Draft).lead fresh [] 1, .ok ()) := by
  rw [feedWord_eq rfl hgrammar]
  exact if_neg hgroup

theorem without_fresh (markers : Markers) (symbol : String) :
    ({ markers } : Draft).Without symbol :=
  ⟨List.not_mem_nil, List.not_mem_nil, by simp, trivial⟩

theorem lead_addAlternative {start : String} (hrules : draft.grammar.rules = []) :
    { draft.lead fresh [] shift with
      grammar := (draft.lead fresh [] shift).grammar.addAlternative fresh [start]
      position := (draft.lead fresh [] shift).position + 4 } =
        draft.lead fresh [(fresh, [[start]])] (shift + 4) := by
  obtain ⟨markers, grammar, stage, faults, position⟩ := draft
  obtain ⟨nonTerminals, terminals, rules, firstSets, followSets⟩ := grammar
  obtain rfl : rules = [] := hrules
  have hposition : shift + position + 4 = shift + 4 + position := by omega
  simp only [lead, Grammar.withFront, Grammar.addAlternative, Grammar.addAlternativeTo, hposition,
    List.append_nil]

namespace Parts

variable {markers : Markers} {start : String} (parts : Parts markers words next)
include parts

variable (hfresh : fresh ∉ endOfInput :: emptyText :: words)
include hfresh

theorem entered_lead : (({ markers } : Draft).lead fresh [] 1).feedWords
      (parts.names ++ markers.endGroup :: (parts.letters ++ [markers.endGroup])) =
        (parts.entered.lead fresh [] 1, .ok ()) ∧ parts.entered.Without fresh := by
  have hends := parts.endGrammar_not_mem_before
  rw [parts.words_eq_before] at hfresh
  simp only [before, List.mem_cons, List.mem_append, not_or] at hfresh hends
  refine feedWords_lead (by simp) (Ne.symm hfresh.1) (Ne.symm hfresh.2.1)
    (without_fresh markers fresh) ?_ ?_ parts.enter
  · simp [hfresh]
  · simp [hends]

theorem ended_lead (start : String) (shift : Nat) :
    (parts.entered.lead fresh [(fresh, [[start]])] shift).feedWords parts.rules =
        (parts.ended.lead fresh [(fresh, [[start]])] shift, .ok ()) ∧
      parts.ended.Without fresh := by
  have hentered := (parts.entered_lead hfresh).2
  have hends := parts.endGrammar_not_mem_before
  rw [parts.words_eq_before] at hfresh
  simp only [before, List.mem_cons, List.mem_append, not_or] at hfresh hends
  refine feedWords_lead (by simp) (Ne.symm hfresh.1) (Ne.symm hfresh.2.1) hentered ?_ ?_ parts.read
  · simp [hfresh]
  · simp [parts.markers_eq, hends]

variable {grammar : Grammar} (hgrammar : next.grammar? = .ok grammar)
  (hstart : grammar.start? = some start)
include hgrammar hstart

omit hfresh in
theorem start_mem : start ∈ parts.entered.grammar.nonTerminals := by
  obtain rfl : (written markers words).freeze = grammar :=
    Except.ok.inj (parts.grammar?_eq.symm.trans hgrammar)
  rw [parts.written_eq] at hstart
  rw [← parts.inRules.nonTerminals]
  exact List.mem_of_head? hstart

theorem led (hspecial : ∀ symbol ∈ [endOfInput, emptyText], symbol ∉ grammar.nonTerminals) :
    (written markers words).Led fresh start := by
  obtain rfl : (written markers words).freeze = grammar :=
    Except.ok.inj (parts.grammar?_eq.symm.trans hgrammar)
  have hwithout := (parts.ended_lead hfresh start 0).2
  have hterminal : ∀ symbol ∈ [endOfInput, emptyText],
      parts.ended.grammar.isTerminal symbol = true := by
    intro symbol hsymbol
    have hnot : symbol ∉ (written markers words).nonTerminals := hspecial symbol hsymbol
    rw [parts.written_eq, parts.inRules.nonTerminals] at hnot
    rw [Grammar.isTerminal_iff, parts.inRules.terminals]
    exact (parts.special symbol hsymbol).resolve_right hnot
  have hreachable : parts.ended.Reachable := by
    have hread : ({ markers } : Draft).Reachable := ⟨markers, .refl⟩
    have hended := hread.feedWords parts.before
    rwa [parts.feedWords_before] at hended
  rw [parts.written_eq] at hstart ⊢
  exact {
    wellFormed := hreachable.sound.wellFormed
    isTerminal_empty := hterminal emptyText (by simp)
    isTerminal_end := hterminal endOfInput (by simp)
    start? := hstart
    not_terminal := hwithout.not_terminal
    not_nonTerminal := hwithout.not_nonTerminal
    not_mem := by
      intro key body hbody
      obtain ⟨alternatives, hlookup, hmem⟩ := Grammar.mem_alternatives_iff.mp hbody
      exact hwithout.not_mem _ (Grammar.mem_of_lookup hlookup) body hmem }

omit hgrammar hstart in
theorem endGroup_ne_fresh : markers.endGroup ≠ fresh := by
  have hmem : markers.endGroup ∈ words := by
    rw [parts.words_eq_before]
    simp [before]
  rintro rfl
  simp [hmem] at hfresh

omit hgrammar hstart in
theorem endGrammar_ne_fresh : markers.endGrammar ≠ fresh := by
  have hmem : markers.endGrammar ∈ words := by
    rw [parts.words_eq_before]
    simp
  rintro rfl
  simp [hmem] at hfresh

theorem feedWords_entered_lead
    (hseparator : markers.separator ∉ [fresh, start, markers.endGrammar]) :
    (parts.entered.lead fresh [] 1).feedWords (markers.leadingRule fresh start) =
      (parts.entered.lead fresh [(fresh, [[start]])] 5, .ok ()) := by
  have hwithout := (parts.entered_lead hfresh).2
  have hmem := parts.start_mem hgrammar hstart
  have hne : start ≠ fresh := by
    rintro rfl
    exact hwithout.not_nonTerminal hmem
  have hother : ∀ word ∉ parts.names ++ parts.letters, word ≠ start := by
    rintro _ hword rfl
    exact hword (parts.nonTerminals hmem)
  have hends : markers.endGrammar ∉ parts.names ++ parts.letters :=
    fun h => parts.endGrammar_not_mem (List.mem_append_left _ h)
  have hmarkers : (parts.entered.lead fresh [] 1).markers = markers := parts.markers_eq
  have hkey : (parts.entered.lead fresh [] 1).grammar.kindOf? fresh = some .nonTerminal :=
    Grammar.kindOf?_withFront_self hwithout.not_terminal
  have hsymbol : ((parts.entered.lead fresh [] 1).grammar.kindOf? start).isSome = true :=
    Grammar.isSome_kindOf?_of_mem (List.mem_cons_of_mem _ hmem)
  simp only [List.mem_cons, List.not_mem_nil, or_false, not_or] at hseparator
  rw [feedWords_leadingRule hmarkers parts.isHalted_entered parts.stage hkey hsymbol,
    lead_addAlternative parts.rules_eq]
  · simp [parts.endGroup_ne_fresh hfresh, hother _ parts.endGroup_not_mem, parts.endGroup_ne]
  · simp [parts.endGrammar_ne_fresh hfresh, hother _ hends, Ne.symm hseparator.2.2]
  · simp [hseparator]

/-- The text with the fresh symbol in front is read to its end as well. -/
theorem exists_feedWords_lead (hseparator : markers.separator ∉ [fresh, start, markers.endGrammar]) :
    ∃ outcome, ({ markers } : Draft).feedWords (markers.lead fresh start words) = (outcome, .ok ()) ∧
      outcome.grammar? = .ok ((written markers words).ledBy fresh start).freeze := by
  obtain ⟨hgroupNames, hgroupLetters⟩ := not_or.mp (mt List.mem_append.mpr parts.endGroup_not_mem)
  have hwords : markers.lead fresh start words = [fresh] ++
      ((parts.names ++ markers.endGroup :: (parts.letters ++ [markers.endGroup])) ++
        (markers.leadingRule fresh start ++
          (parts.rules ++ markers.endGrammar :: parts.rest))) := by
    refine (congrArg (markers.lead fresh start) parts.words_eq).trans ?_
    rw [Markers.lead, Markers.behindGroup_append hgroupNames,
      Markers.behindGroup_append hgroupLetters]
    simp
  have hdeclared : ({ markers } : Draft).feedWords [fresh] =
      (({ markers } : Draft).lead fresh [] 1, .ok ()) :=
    feedWords_cons.mpr ⟨_, feedWord_fresh (parts.endGrammar_ne_fresh hfresh).symm
      (parts.endGroup_ne_fresh hfresh).symm, rfl⟩
  have hmarkers : (parts.ended.lead fresh [(fresh, [[start]])] 5).markers = markers :=
    parts.markers_ended
  obtain ⟨outcome, houtcome, hfrozen, -⟩ :=
    feedWords_end hmarkers parts.isHalted_ended parts.expects parts.rest
  rw [parts.written_eq, hwords]
  exact ⟨outcome, feedWords_append.mpr ⟨_, hdeclared, feedWords_append.mpr
    ⟨_, (parts.entered_lead hfresh).1, feedWords_append.mpr
      ⟨_, parts.feedWords_entered_lead hfresh hgrammar hstart hseparator, feedWords_append.mpr
        ⟨_, (parts.ended_lead hfresh start 5).1, houtcome⟩⟩⟩⟩, hfrozen⟩

end Parts

end Draft

end LineGrammar

import LineGrammar.Proofs.Grammar.Halting
import LineGrammar.Proofs.Grammar.Special

/-!
# What is wrong with grammar texts

A grammar text that can be read to its end may still mention symbols that it does not declare, give
rules to symbols that take none, or give none to some that do (`GrammarText.Shows`). What has been
recorded at the end is exactly that, and the report lists it by number; where a word is refused, the
report says nothing else than that (`Draft.reportsExactly`).
-/

namespace LineGrammar

namespace GrammarText

variable {text : GrammarText} {symbol : String}

/-- The symbol is declared in the text, or has a meaning of its own. -/
def Declares (text : GrammarText) (symbol : String) : Prop :=
  symbol ∈ text.names ++ (text.letters ++ [endOfInput, emptyText])

def HasRule (text : GrammarText) (symbol : String) : Prop :=
  ∃ body, .rule symbol body ∈ text.items

/-- What is wrong with a text: a declared non-terminal without a rule; a key or a symbol of a body
that is not declared, also in a body whose key takes no rules; a key that is a terminal, or a start
symbol without a rule. -/
def Shows (text : GrammarText) : GrammarFault → Prop
  | .malformed => False
  | .ruleless => ∃ name ∈ text.names, ¬text.HasRule name
  | .undeclared => ∃ key body, .rule key body ∈ text.items ∧
      ∃ symbol ∈ key :: body, ¬text.Declares symbol
  | .fixed => (∃ key, text.HasRule key ∧ text.Declares key ∧ key ∉ text.names) ∨
      ∃ start, text.names.head? = some start ∧ ¬text.HasRule start

theorem alternatives_eq_nil_iff (hname : symbol ∈ text.names) :
    text.alternatives symbol = [] ↔ ¬text.HasRule symbol := by
  have hgiven : text.items.filterMap (RuleItem.alternative? symbol) = [] ↔
      ¬text.HasRule symbol := by
    rw [List.filterMap_eq_nil_iff]
    constructor
    · rintro h ⟨body, hitem⟩
      simpa [RuleItem.alternative?] using h _ hitem
    · intro h item hitem
      cases item with
      | blank => rfl
      | rule key body =>
        have hother : key ≠ symbol := by
          rintro rfl
          exact h ⟨body, hitem⟩
        exact if_neg hother
  unfold alternatives
  dsimp only
  rw [if_neg (not_not.mpr hname)]
  split
  · rw [List.map_eq_nil_iff, hgiven]
  · exact hgiven

end GrammarText

namespace Grammar

variable {grammar : Grammar} {symbol : String}

/-! ## The grammar of a text -/

theorem kindOf?_declareAll (names letters : List String) (symbol : String) :
    (declareAll .terminal (declareAll .nonTerminal {} names) letters).kindOf? symbol =
      kindIn names letters symbol := by
  induction letters using List.reverseRecOn generalizing symbol with
  | nil =>
    induction names using List.reverseRecOn generalizing symbol with
    | nil => rfl
    | append_singleton names name ih =>
      exact (congrArg (kindOf? · symbol) (declareAll_concat _ _ _ _)).trans
        (kindOf?_declare_name ih name symbol)
  | append_singleton letters letter ih =>
    rw [declareAll_concat]
    exact kindOf?_declare_letter ih letter symbol

theorem kindOf?_ofText (text : GrammarText) (symbol : String) :
    (ofText text).kindOf? symbol =
      kindIn text.names (text.letters ++ [endOfInput, emptyText]) symbol :=
  (congrFun (kindOf?_foldl_addItem _ _) symbol).trans
    (kindOf?_withSpecial (kindOf?_declareAll text.names text.letters) symbol)

theorem kindOf?_ofText_eq_none (text : GrammarText) (symbol : String) :
    (ofText text).kindOf? symbol = none ↔ ¬text.Declares symbol := by
  rw [kindOf?_ofText, GrammarText.Declares, List.mem_append, not_or]
  generalize text.letters ++ [endOfInput, emptyText] = letters
  unfold kindIn
  split_ifs with hname hletter
  · simp [hname]
  · simp [hletter]
  · simp [hname, hletter]

theorem kindOf?_ofText_eq_terminal (text : GrammarText) (symbol : String) :
    (ofText text).kindOf? symbol = some .terminal ↔
      text.Declares symbol ∧ symbol ∉ text.names := by
  rw [kindOf?_ofText, GrammarText.Declares, List.mem_append]
  generalize text.letters ++ [endOfInput, emptyText] = letters
  unfold kindIn
  split_ifs with hname hletter
  · simp [hname]
  · simp [hname, hletter]
  · simp [hname, hletter]

theorem listed_declareAll (kind : SymbolKind) (h : grammar.Listed) (symbols : List String) :
    (declareAll kind grammar symbols).Listed :=
  List.foldlRecOn symbols _ h fun _ hlisted symbol _ => hlisted.declare kind symbol

theorem Listed.addItem (h : grammar.Listed) (item : RuleItem) : (grammar.addItem item).Listed := by
  cases item with
  | blank => exact h
  | rule key body =>
    simp only [Grammar.addItem]
    split
    · exact h.addAlternative key _
    · exact h

theorem listed_ofText (text : GrammarText) : (ofText text).Listed := by
  have hnew : ({} : Grammar).Listed := ⟨List.nodup_nil, List.nodup_nil, by simp⟩
  have hsymbols := listed_declareAll .terminal (listed_declareAll .nonTerminal hnew text.names)
    text.letters
  exact List.foldlRecOn text.items _ ((hsymbols.declare .terminal endOfInput).declare .terminal
    emptyText) fun _ hlisted item _ => hlisted.addItem item

theorem Listed.hasRules_eq_false_iff (h : grammar.Listed) :
    grammar.hasRules symbol = false ↔ grammar.alternatives symbol = [] := by
  unfold hasRules alternatives
  cases hfound : grammar.rules.lookup symbol with
  | none => simp
  | some alternatives =>
    have hne : alternatives ≠ [] := h.ne_nil _ (mem_of_lookup hfound)
    simpa using hne

theorem lacksRules_ofText (text : GrammarText) (fault : GrammarFault) :
    (ofText text).freeze.LacksRules fault ↔
      (fault = .ruleless ∧ ∃ name ∈ text.names, ¬text.HasRule name) ∨
        (fault = .fixed ∧ ∃ start, text.names.head? = some start ∧ ¬text.HasRule start) := by
  obtain ⟨hnames, -, halternatives⟩ := describes_ofText text
  have hlacks : ∀ name ∈ text.names,
      ((ofText text).freeze.hasRules name = false ↔ ¬text.HasRule name) := by
    intro name hname
    rw [(listed_ofText text).freeze.hasRules_eq_false_iff, halternatives,
      GrammarText.alternatives_eq_nil_iff hname]
  have hstart : (ofText text).freeze.start? = text.names.head? := by
    rw [start?, hnames, head?_eraseDups]
  cases fault with
  | malformed | undeclared => simp [LacksRules]
  | ruleless =>
    simp only [LacksRules, hnames, List.mem_eraseDups, true_and, reduceCtorEq, false_and, or_false]
    exact exists_congr fun name => and_congr_right fun hname => hlacks name hname
  | fixed =>
    simp only [LacksRules, hstart, true_and, reduceCtorEq, false_and, false_or]
    exact exists_congr fun start => and_congr_right fun hhead =>
      hlacks start (List.mem_of_head? hhead)

end Grammar

namespace GrammarFault

variable {fault : GrammarFault} {faults : List GrammarFault}

/-- The lines report what is shown: there is one for each number, with the least first. -/
def Reports (shown : GrammarFault → Prop) (lines : List String) : Prop :=
  ∃ numbers : List Nat, numbers.Pairwise (· < ·) ∧
    (∀ number, number ∈ numbers ↔ ∃ fault, shown fault ∧ fault.number = number) ∧
    lines = numbers.map fun number => "P_ERROR CODE " ++ toString number

theorem reports_report (hmalformed : .malformed ∉ faults) :
    Reports (· ∈ faults) (report faults) := by
  have hsorted : reported faults = sorted faults := if_neg hmalformed
  refine ⟨(sorted faults).map number, ?_, fun number => ?_, ?_⟩
  · have hall : (all.map number).Pairwise (· < ·) := by decide
    exact hall.sublist ((List.filter_sublist).map number)
  · have hmem : ∀ fault : GrammarFault, fault ∈ sorted faults ↔ fault ∈ faults := by
      intro fault
      have hall : fault ∈ all := by cases fault <;> decide
      simp [sorted, hall]
    simp [hmem]
  · rw [report, hsorted, List.map_map]
    rfl

end GrammarFault

namespace Draft

variable {markers : Markers} {draft outcome : Draft} {words : List String}

/-! ## What is recorded -/

theorem mem_foldl_noteSymbol {kinds : String → Option SymbolKind} {body : List String}
    {faults : List GrammarFault} {fault : GrammarFault} :
    fault ∈ body.foldl (noteSymbol kinds) faults ↔
      fault ∈ faults ∨ fault = .undeclared ∧ ∃ symbol ∈ body, kinds symbol = none := by
  induction body generalizing faults with
  | nil => simp
  | cons symbol body ih =>
    rw [List.foldl_cons, ih, noteSymbol]
    cases hkind : kinds symbol with
    | none => simp [GrammarFault.mem_record, hkind, or_assoc, or_iff_left_of_imp And.left]
    | some kind => simp [hkind]

theorem mem_noteItem {kinds : String → Option SymbolKind} {item : RuleItem}
    {faults : List GrammarFault} {fault : GrammarFault} :
    fault ∈ noteItem kinds faults item ↔ fault ∈ faults ∨ ∃ key body, item = .rule key body ∧
      (fault = .undeclared ∧ (∃ symbol ∈ key :: body, kinds symbol = none) ∨
        fault = .fixed ∧ kinds key = some .terminal) := by
  cases item with
  | blank => simp [noteItem]
  | rule key body =>
    rw [noteItem, mem_foldl_noteSymbol, noteKey]
    cases hkind : kinds key with
    | none => simp [GrammarFault.mem_record, hkind, or_assoc, or_iff_left_of_imp And.left]
    | some kind =>
      cases kind with
      | terminal =>
        simp [GrammarFault.mem_record, hkind, or_assoc, or_comm (a := fault = .fixed)]
      | nonTerminal => simp [hkind]

theorem mem_foldl_noteItem {kinds : String → Option SymbolKind} {items : List RuleItem}
    {faults : List GrammarFault} {fault : GrammarFault} :
    fault ∈ items.foldl (noteItem kinds) faults ↔
      fault ∈ faults ∨ ∃ key body, .rule key body ∈ items ∧
        (fault = .undeclared ∧ (∃ symbol ∈ key :: body, kinds symbol = none) ∨
          fault = .fixed ∧ kinds key = some .terminal) := by
  induction items generalizing faults with
  | nil => simp
  | cons item items ih =>
    rw [List.foldl_cons, ih, mem_noteItem, or_assoc]
    simp only [List.mem_cons, or_and_right, exists_or, eq_comm]

theorem mem_faults_iff_shows {text : GrammarText} (h : text.Proper markers)
    (hgroup : markers.endGroup ≠ markers.endGrammar)
    (hends : ∀ item ∈ text.items, markers.endGrammar ∉ item.words markers)
    (hread : ({ markers } : Draft).feedWords (text.words markers) = (outcome, .ok ()))
    (fault : GrammarFault) : fault ∈ outcome.faults ↔ text.Shows fault := by
  obtain ⟨last, hlast, -, hfaults⟩ := exists_outcome h hgroup hends
  obtain ⟨rfl, -⟩ := Prod.mk.inj (hread.symm.trans hlast)
  rw [hfaults, mem_foldl_noteItem, Grammar.lacksRules_ofText]
  simp only [Grammar.kindOf?_ofText_eq_none, Grammar.kindOf?_ofText_eq_terminal]
  cases fault with
  | malformed | ruleless | undeclared => simp [GrammarText.Shows]
  | fixed => simp [GrammarText.Shows, GrammarText.HasRule, ← exists_and_right]

/-! ## Words that are read to the end -/

theorem Takes.stands {stage next : DraftStage} {grammar result : Grammar}
    {faults noted : List GrammarFault}
    (h : Takes markers stage grammar faults words next result noted)
    (hdraft : Stands markers stage grammar faults draft)
    (hread : draft.feedWords words = (outcome, .ok ())) :
    Stands markers next result noted outcome := by
  obtain ⟨after, hafter, hstands⟩ := h draft hdraft
  obtain ⟨rfl, -⟩ := Prod.mk.inj (hread.symm.trans hafter)
  exact hstands

/-- Where the end also separates, there are no rules in what is read. -/
theorem eq_blank_of_feedWords (hgroup : markers.endGroup ≠ markers.endGrammar)
    (hseparator : markers.separator = markers.endGrammar) {grammar : Grammar}
    {faults : List GrammarFault} {items : List RuleItem}
    (hplain : ∀ item ∈ items, item.Plain markers)
    (hdraft : Stands markers (.rules .expectKey) grammar faults draft)
    (h : draft.feedWords (items.flatMap (RuleItem.words markers) ++ words) = (outcome, .ok ())) :
    ∀ item ∈ items, item = .blank := by
  induction items generalizing draft with
  | nil => simp
  | cons item items ih =>
    obtain ⟨hitem, hrest⟩ := List.forall_mem_cons.mp hplain
    rw [List.flatMap_cons, List.append_assoc] at h
    cases item with
    | blank =>
      obtain ⟨next, hnext, hothers⟩ := feedWords_append.mp h
      have hstands := (takes_blank hgroup).stands hdraft hnext
      exact List.forall_mem_cons.mpr ⟨rfl, ih hrest hstands hothers⟩
    | rule key body =>
      -- the draft stops at the end behind the key
      obtain ⟨keyed, hkeyed, hothers⟩ := feedWords_cons.mp h
      obtain ⟨hhalted, rfl, hstage, -, -⟩ := (takes_key (List.forall_mem_cons.mp hitem).1).stands
        hdraft (feedWords_cons.mpr ⟨keyed, hkeyed, rfl⟩)
      obtain ⟨next, hnext, -⟩ := feedWords_cons.mp hothers
      rw [hseparator, feedWord_endGrammar hhalted (by simp [hstage]), freeze,
        show keyed.advance.stage = _ from hstage] at hnext
      cases (Prod.mk.inj hnext).2

theorem endGrammar_not_mem_of_feedWords {text : GrammarText} (h : text.Proper markers)
    (hgroup : markers.endGroup ≠ markers.endGrammar)
    (hread : ({ markers } : Draft).feedWords (text.words markers) = (outcome, .ok ())) :
    ∀ item ∈ text.items, markers.endGrammar ∉ item.words markers := by
  intro item hitem
  by_cases hseparator : markers.separator = markers.endGrammar
  · have hwords : text.words markers = text.names ++ markers.endGroup ::
        (text.letters ++ [markers.endGroup]) ++ (text.items.flatMap (RuleItem.words markers) ++
          markers.endGrammar :: text.rest) := by
      simp [GrammarText.words]
    rw [hwords] at hread
    obtain ⟨entered, hentered, hrules⟩ := feedWords_append.mp hread
    have hstands := (takes_symbolGroups hgroup h.names_ne_nil h.exists_letter h.not_marker).stands
      ⟨rfl, rfl, rfl, rfl, rfl⟩ hentered
    rw [eq_blank_of_feedWords hgroup hseparator h.plain hstands hrules item hitem]
    simpa [RuleItem.words] using Ne.symm hgroup
  · exact endGrammar_not_mem_words hgroup hseparator (h.plain item hitem)

theorem isHalted_of_feedWords_error {error : GrammarError}
    (h : draft.feedWords words = (outcome, .error error)) : outcome.isHalted = true := by
  induction words generalizing draft with
  | nil => cases (Prod.mk.inj h).2
  | cons word words ih =>
    rw [feedWords] at h
    split at h
    · exact ih h
    · next next refused hrefused =>
      obtain ⟨rfl, -⟩ := Prod.mk.inj h
      have hhalts := halts_feedWord draft word
      rw [hrefused] at hhalts
      exact hhalts.resolve_left (by simp)

/-- A draft reports exactly what is wrong with the words that it has read. Words that it has read to
the end are those of a grammar text; the faults are what the text shows, and the report is on them.
For words that are refused the report is that they are malformed, whatever else is wrong. -/
theorem reportsExactly (markers : Markers) (words : List String) :
    (∀ outcome, ({ markers } : Draft).feedWords words = (outcome, .ok ()) →
      outcome.isFinished = true →
      (∃ text : GrammarText, text.Proper markers ∧ words = text.words markers) ∧
      ∀ text : GrammarText, text.Proper markers → words = text.words markers →
        (∀ fault, fault ∈ outcome.faults ↔ text.Shows fault) ∧
          GrammarFault.Reports text.Shows outcome.report) ∧
    ∀ outcome error, ({ markers } : Draft).feedWords words = (outcome, .error error) →
      outcome.report = ["P_ERROR CODE 0"] := by
  refine ⟨fun outcome hread hfinished => ?_, fun outcome error hread => ?_⟩
  · have hstage : outcome.stage = .finished := by
      simp only [isFinished, Bool.and_eq_true, beq_iff_eq] at hfinished
      exact hfinished.1
    refine ⟨exists_text hread hstage, ?_⟩
    rintro text hproper rfl
    obtain ⟨parts⟩ := exists_parts hread hstage
    have hshown := mem_faults_iff_shows hproper parts.endGroup_ne
      (endGrammar_not_mem_of_feedWords hproper parts.endGroup_ne hread) hread
    refine ⟨hshown, ?_⟩
    have hreports := GrammarFault.reports_report (mt (hshown .malformed).mp id)
    rwa [funext fun fault => propext (hshown fault)] at hreports
  · have hmalformed := isHalted_iff.mp (isHalted_of_feedWords_error hread)
    have hreported : GrammarFault.reported outcome.faults = [.malformed] := if_pos hmalformed
    rw [report, GrammarFault.report, hreported]
    rfl

/-- A key that is a terminal, with an undeclared symbol behind it, before any other rule; and a
non-terminal without a rule. -/
def faultyText : GrammarText where
  names := ["S", "U", "S"]
  letters := ["a"]
  items := [.rule "a" ["q"], .blank, .rule "S" ["a"]]
  rest := ["->"]

/-- A symbol that is not declared, and then a separator without a key. -/
def refusedWords : List String :=
  ["S", "#", "a", "#", "S", "->", "q", "#", "->"]

theorem reportsExactly_faultyText :
    (∃ outcome, ({} : Draft).feedWords (faultyText.words {}) = (outcome, .ok ()) ∧
      outcome.isFinished = true ∧
      outcome.report = ["P_ERROR CODE 1", "P_ERROR CODE 2", "P_ERROR CODE 3"]) ∧
    ∃ outcome,
      ({} : Draft).feedWords refusedWords = (outcome, .error (.malformed 9 .separatorWithoutKey)) ∧
      .undeclared ∈ outcome.faults ∧ outcome.report = ["P_ERROR CODE 0"] := by
  constructor
  · have hproper : faultyText.Proper {} := ⟨by decide, by decide, by decide, by decide⟩
    obtain ⟨outcome, hread, hgrammar, -⟩ := exists_outcome hproper (by decide) (by decide)
    have hfinished : outcome.isFinished = true := by
      have hstage := stage_of_grammar? hgrammar
      unfold grammar? at hgrammar
      split_ifs at hgrammar with hhalted
      simp [isFinished, hstage, hhalted]
    refine ⟨outcome, hread, hfinished, ?_⟩
    obtain ⟨-, hshown⟩ := (reportsExactly {} (faultyText.words {})).1 outcome hread hfinished
    obtain ⟨hfaults, -⟩ := hshown faultyText hproper rfl
    have hruleless : ¬faultyText.HasRule "U" := by simp [GrammarText.HasRule, faultyText]
    have hundeclared : ¬faultyText.Declares "q" := by unfold GrammarText.Declares; decide
    have hletter : faultyText.Declares "a" := by unfold GrammarText.Declares; decide
    have hall : GrammarFault.sorted outcome.faults = [.ruleless, .undeclared, .fixed] := by
      have hmalformed : .malformed ∉ outcome.faults := mt (hfaults _).mp id
      have hfirst : .ruleless ∈ outcome.faults := (hfaults _).mpr ⟨"U", by decide, hruleless⟩
      have hsecond : .undeclared ∈ outcome.faults :=
        (hfaults _).mpr ⟨"a", ["q"], by decide, "q", by decide, hundeclared⟩
      have hthird : .fixed ∈ outcome.faults :=
        (hfaults _).mpr (.inl ⟨"a", ⟨["q"], by decide⟩, hletter, by decide⟩)
      simp [GrammarFault.sorted, GrammarFault.all, hmalformed, hfirst, hsecond, hthird]
    rw [report, GrammarFault.report, GrammarFault.reported, if_neg (mt (hfaults _).mp id), hall]
    rfl
  · have hread : ({} : Draft).feedWords refusedWords =
        ((({} : Draft).feedWords refusedWords).1, .error (.malformed 9 .separatorWithoutKey)) :=
      Prod.ext rfl rfl
    exact ⟨_, hread, by decide, (reportsExactly {} refusedWords).2 _ _ hread⟩

end Draft

end LineGrammar

import LineGrammar.Proofs.Grammar.EndOfInput
import LineGrammar.Proofs.Grammar.Reading
import Mathlib.Data.List.Induction

/-!
# The format of grammar texts

A grammar text is made of the names of the non-terminals, those of the terminals, rules with an end
of group behind each, and the end; ends of groups may also stand between the rules, and anything
behind the end (`GrammarText`). What such a text writes is, when it is frozen, the grammar that the
text describes (`Grammar.describes_ofText`).
-/

namespace LineGrammar

/-! ## Grammar texts -/

def Markers.words (markers : Markers) : List String :=
  [markers.endGroup, markers.endGrammar, markers.separator]

/-- A piece of the rules of a grammar text: an end of group by itself, or a rule. -/
inductive RuleItem where
  | blank
  | rule (key : String) (body : List String)
  deriving DecidableEq, Repr

namespace RuleItem

def words (markers : Markers) : RuleItem → List String
  | blank => [markers.endGroup]
  | rule key body => key :: markers.separator :: (body ++ [markers.endGroup])

/-- Neither the key nor a symbol of the body is a marker. -/
def Plain (markers : Markers) : RuleItem → Prop
  | blank => True
  | rule key body => ∀ word ∈ key :: body, word ∉ markers.words

instance (markers : Markers) (item : RuleItem) : Decidable (item.Plain markers) :=
  match item with
  | blank => inferInstanceAs (Decidable True)
  | rule key body => inferInstanceAs (Decidable (∀ word ∈ key :: body, word ∉ markers.words))

/-- The alternative that is given for a symbol. An empty body stands for the empty text. -/
def alternative? (symbol : String) : RuleItem → Option Alternative
  | blank => none
  | rule key body =>
    if key = symbol then some (if body = [] then [emptyText] else body) else none

end RuleItem

/-- A grammar text by its parts. -/
structure GrammarText where
  names : List String
  letters : List String
  items : List RuleItem
  rest : List String
  deriving DecidableEq, Repr

namespace GrammarText

def words (markers : Markers) (text : GrammarText) : List String :=
  text.names ++ markers.endGroup :: (text.letters ++ markers.endGroup ::
    (text.items.flatMap (RuleItem.words markers) ++ markers.endGrammar :: text.rest))

/-- There are symbols of both kinds, and the markers are where they belong. -/
structure Proper (markers : Markers) (text : GrammarText) : Prop where
  names_ne_nil : text.names ≠ []
  exists_letter : ∃ letter ∈ text.letters, letter ∉ text.names
  not_marker : ∀ word ∈ text.names ++ text.letters,
    word ≠ markers.endGroup ∧ word ≠ markers.endGrammar
  plain : ∀ item ∈ text.items, item.Plain markers

/-- The alternatives of a symbol, in the order in which they are given. Those of the start symbol
end with the end of the input. -/
def alternatives (text : GrammarText) (symbol : String) : List Alternative :=
  let given := text.items.filterMap (RuleItem.alternative? symbol)
  if symbol ∉ text.names then []
  else if text.names.head? = some symbol then given.map Grammar.terminated
  else given

/-- The grammar has the symbols and the alternatives that the text gives. -/
structure Describes (text : GrammarText) (grammar : Grammar) : Prop where
  nonTerminals : grammar.nonTerminals = text.names.eraseDups
  terminals : grammar.terminals =
    (text.letters.filter (· ∉ text.names)).eraseDups ++
      [endOfInput, emptyText].filter (· ∉ text.names ++ text.letters)
  alternatives : ∀ symbol, grammar.alternatives symbol = text.alternatives symbol

end GrammarText

namespace Grammar

variable {grammar : Grammar} {symbol key : String}

/-! ## What a text writes -/

/-- The grammar with symbols of a kind. -/
def declareAll (kind : SymbolKind) (grammar : Grammar) (symbols : List String) : Grammar :=
  symbols.foldl (fun (grammar : Grammar) symbol => grammar.declare kind symbol) grammar

/-- The grammar with the rule of an item, if it has a key that takes rules. -/
def addItem (grammar : Grammar) : RuleItem → Grammar
  | .blank => grammar
  | .rule key body =>
    if grammar.kindOf? key = some .nonTerminal then
      grammar.addAlternative key (if body = [] then [emptyText] else body)
    else grammar

/-- The grammar with the terminals that have a meaning of their own. -/
def withSpecial (grammar : Grammar) : Grammar :=
  (grammar.declare .terminal endOfInput).declare .terminal emptyText

/-- The grammar that a text gives, as it is written. -/
def ofText (text : GrammarText) : Grammar :=
  let lettered := declareAll .terminal (declareAll .nonTerminal {} text.names) text.letters
  text.items.foldl addItem lettered.withSpecial

theorem isSome_kindOf?_iff : (grammar.kindOf? symbol).isSome = true ↔
    symbol ∈ grammar.terminals ∨ symbol ∈ grammar.nonTerminals := by
  rw [← not_iff_not, Bool.not_eq_true, Option.isSome_eq_false_iff, Option.isNone_iff_eq_none,
    kindOf?_eq_none, not_or]

theorem terminals_declare_terminal (grammar : Grammar) (symbol : String) :
    (grammar.declare .terminal symbol).terminals = grammar.terminals ++
      [symbol].filter (· ∉ grammar.terminals ++ grammar.nonTerminals) := by
  unfold declare
  by_cases hknown : (grammar.kindOf? symbol).isSome = true
  · rw [if_pos hknown]
    simp [isSome_kindOf?_iff.mp hknown, ← not_or]
  · rw [if_neg hknown]
    have hnew := mt isSome_kindOf?_iff.mpr hknown
    rw [List.filter_cons_of_pos (by simpa using hnew)]
    rfl

/-! ### The symbols -/

theorem eraseDups_concat (names : List String) (name : String) :
    (names ++ [name]).eraseDups =
      names.eraseDups ++ if name ∈ names then [] else [name] := by
  rw [List.eraseDups_append]
  by_cases h : name ∈ names <;> simp [List.removeAll, h, List.eraseDups_cons]

theorem head?_eraseDups (names : List String) : names.eraseDups.head? = names.head? := by
  cases names with
  | nil => rfl
  | cons name names => rw [List.eraseDups_cons]; rfl

theorem declareAll_concat (kind : SymbolKind) (grammar : Grammar) (symbols : List String)
    (symbol : String) : declareAll kind grammar (symbols ++ [symbol]) =
      (declareAll kind grammar symbols).declare kind symbol :=
  List.foldl_concat _ _ _ _

theorem rules_declareAll (kind : SymbolKind) (grammar : Grammar) (symbols : List String) :
    (declareAll kind grammar symbols).rules = grammar.rules := by
  induction symbols using List.reverseRecOn with
  | nil => rfl
  | append_singleton symbols symbol ih => rw [declareAll_concat, rules_declare, ih]

theorem terminals_declare_nonTerminal (grammar : Grammar) (symbol : String) :
    (grammar.declare .nonTerminal symbol).terminals = grammar.terminals := by
  unfold declare
  split <;> rfl

theorem declareAll_nonTerminal (names : List String) :
    (declareAll .nonTerminal {} names).nonTerminals = names.eraseDups ∧
      (declareAll .nonTerminal {} names).terminals = [] := by
  induction names using List.reverseRecOn with
  | nil => exact ⟨rfl, rfl⟩
  | append_singleton names name ih =>
    rw [declareAll_concat]
    generalize declareAll .nonTerminal {} names = declared at ih
    obtain ⟨hnames, hletters⟩ := ih
    refine ⟨?_, (terminals_declare_nonTerminal _ _).trans hletters⟩
    have hknown : (declared.kindOf? name).isSome = true ↔ name ∈ names := by
      rw [isSome_kindOf?_iff, hletters, hnames, List.mem_eraseDups]
      simp
    rw [eraseDups_concat, ← hnames]
    unfold declare
    by_cases hname : name ∈ names
    · rw [if_pos (hknown.mpr hname), if_pos hname, List.append_nil]
    · rw [if_neg (mt hknown.mp hname), if_neg hname]

theorem declareAll_terminal (hnone : grammar.terminals = []) (letters : List String) :
    (declareAll .terminal grammar letters).terminals =
        (letters.filter (· ∉ grammar.nonTerminals)).eraseDups ∧
      (declareAll .terminal grammar letters).nonTerminals = grammar.nonTerminals := by
  induction letters using List.reverseRecOn with
  | nil => exact ⟨hnone, rfl⟩
  | append_singleton letters letter ih =>
    rw [declareAll_concat]
    generalize declareAll .terminal grammar letters = declared at ih
    obtain ⟨hletters, hnames⟩ := ih
    refine ⟨?_, (nonTerminals_declare_terminal _ _).trans hnames⟩
    rw [terminals_declare_terminal, hletters, hnames, List.filter_append]
    by_cases hname : letter ∈ grammar.nonTerminals
    · simp [hname]
    · have hkept : [letter].filter (· ∉ grammar.nonTerminals) = [letter] := by simp [hname]
      rw [hkept, eraseDups_concat]
      by_cases hletter : letter ∈ letters <;> simp [hname, hletter]

theorem nonTerminals_withSpecial (grammar : Grammar) :
    grammar.withSpecial.nonTerminals = grammar.nonTerminals :=
  (nonTerminals_declare_terminal _ _).trans (nonTerminals_declare_terminal _ _)

theorem terminals_withSpecial (grammar : Grammar) :
    grammar.withSpecial.terminals = grammar.terminals ++
      [endOfInput, emptyText].filter (· ∉ grammar.terminals ++ grammar.nonTerminals) := by
  have hne : emptyText ≠ endOfInput := by decide
  unfold withSpecial
  rw [terminals_declare_terminal, terminals_declare_terminal, nonTerminals_declare_terminal]
  generalize emptyText = empty at hne
  have hempty : ∀ others : List String, (∀ symbol ∈ others, symbol = endOfInput) →
      (empty ∈ grammar.terminals ++ others ++ grammar.nonTerminals ↔
        empty ∈ grammar.terminals ++ grammar.nonTerminals) := by
    intro others hothers
    have hnew : empty ∉ others := fun hmem => hne (hothers empty hmem)
    simp [hnew]
  have hadded : ∀ symbol ∈ [endOfInput].filter
      (· ∉ grammar.terminals ++ grammar.nonTerminals), symbol = endOfInput := by
    intro symbol hsymbol
    exact List.mem_singleton.mp (List.mem_filter.mp hsymbol).1
  rw [List.append_assoc, ← List.singleton_append (l := [empty]), List.filter_append]
  congr 2
  refine List.filter_congr fun symbol hsymbol => ?_
  obtain rfl := List.mem_singleton.mp hsymbol
  exact decide_eq_decide.mpr (not_congr (hempty _ hadded))

/-! ### The rules -/

theorem lookup_addAlternativeTo (entries : List (String × List Alternative)) (key symbol : String)
    (body : Alternative) :
    ((addAlternativeTo key body entries).lookup symbol).getD [] =
      (entries.lookup symbol).getD [] ++ if key = symbol then [body] else [] := by
  induction entries with
  | nil =>
    by_cases h : key = symbol
    · simp [addAlternativeTo, h]
    · simp [addAlternativeTo, h, List.lookup_cons, beq_eq_false_iff_ne.mpr (Ne.symm h)]
  | cons entry entries ih =>
    obtain ⟨other, bodies⟩ := entry
    unfold addAlternativeTo
    split
    · next heq =>
      subst heq
      by_cases h : other = symbol
      · simp [h]
      · simp [h, List.lookup_cons, beq_eq_false_iff_ne.mpr (Ne.symm h)]
    · next hne =>
      rw [List.lookup_cons, List.lookup_cons]
      by_cases h : symbol = other
      · subst h
        simp [Ne.symm hne]
      · rw [beq_eq_false_iff_ne.mpr h]
        exact ih

theorem alternatives_addItem (grammar : Grammar) (item : RuleItem) (symbol : String) :
    (grammar.addItem item).alternatives symbol = grammar.alternatives symbol ++
      if grammar.kindOf? symbol = some .nonTerminal then (item.alternative? symbol).toList
      else [] := by
  cases item with
  | blank => simp [addItem, RuleItem.alternative?]
  | rule key body =>
    simp only [addItem, RuleItem.alternative?]
    by_cases hkey : key = symbol
    · subst hkey
      by_cases hkind : grammar.kindOf? key = some .nonTerminal
      · rw [if_pos hkind, if_pos hkind, if_pos rfl]
        exact (lookup_addAlternativeTo _ _ _ _).trans (by rw [if_pos rfl]; rfl)
      · rw [if_neg hkind, if_neg hkind, List.append_nil]
    · rw [if_neg hkey]
      split
      · exact (lookup_addAlternativeTo _ _ _ _).trans (by rw [if_neg hkey]; simp [alternatives])
      · simp

theorem symbols_addItem (grammar : Grammar) (item : RuleItem) :
    (grammar.addItem item).nonTerminals = grammar.nonTerminals ∧
      (grammar.addItem item).terminals = grammar.terminals := by
  cases item with
  | blank => exact ⟨rfl, rfl⟩
  | rule key body =>
    simp only [addItem]
    split <;> exact ⟨rfl, rfl⟩

theorem kindOf?_addItem (grammar : Grammar) (item : RuleItem) :
    (grammar.addItem item).kindOf? = grammar.kindOf? := by
  obtain ⟨hnames, hletters⟩ := symbols_addItem grammar item
  funext symbol
  unfold kindOf? isTerminal isNonTerminal
  rw [hnames, hletters]

theorem symbols_foldl_addItem (grammar : Grammar) (items : List RuleItem) :
    (items.foldl addItem grammar).nonTerminals = grammar.nonTerminals ∧
      (items.foldl addItem grammar).terminals = grammar.terminals := by
  induction items generalizing grammar with
  | nil => exact ⟨rfl, rfl⟩
  | cons item items ih =>
    obtain ⟨hnames, hletters⟩ := symbols_addItem grammar item
    obtain ⟨hothers, hrest⟩ := ih (grammar.addItem item)
    exact ⟨hothers.trans hnames, hrest.trans hletters⟩

theorem kindOf?_foldl_addItem (grammar : Grammar) (items : List RuleItem) :
    (items.foldl addItem grammar).kindOf? = grammar.kindOf? := by
  induction items generalizing grammar with
  | nil => rfl
  | cons item items ih => exact (ih (grammar.addItem item)).trans (kindOf?_addItem grammar item)

theorem alternatives_foldl_addItem (grammar : Grammar) (items : List RuleItem) (symbol : String) :
    (items.foldl addItem grammar).alternatives symbol = grammar.alternatives symbol ++
      if grammar.kindOf? symbol = some .nonTerminal then
        items.filterMap (RuleItem.alternative? symbol)
      else [] := by
  induction items generalizing grammar with
  | nil => simp
  | cons item items ih =>
    rw [List.foldl_cons, ih, alternatives_addItem, kindOf?_addItem, List.append_assoc]
    congr 1
    split
    · cases hitem : item.alternative? symbol <;> simp [hitem]
    · rfl

theorem kindOf?_eq_nonTerminal_iff (hdisjoint : symbol ∈ grammar.terminals →
      symbol ∉ grammar.nonTerminals) :
    grammar.kindOf? symbol = some .nonTerminal ↔ symbol ∈ grammar.nonTerminals := by
  refine ⟨kindOf?_eq_nonTerminal, fun hsymbol => ?_⟩
  unfold kindOf?
  rw [if_neg, if_pos (isNonTerminal_iff.mpr hsymbol)]
  exact fun hterminal => hdisjoint (isTerminal_iff.mp hterminal) hsymbol

theorem describes_ofText (text : GrammarText) : text.Describes (ofText text).freeze := by
  obtain ⟨hnames, hnone⟩ := declareAll_nonTerminal text.names
  obtain ⟨hletters, hlettered⟩ := declareAll_terminal hnone text.letters
  have hrules := (rules_declareAll .terminal (declareAll .nonTerminal {} text.names)
    text.letters).trans (rules_declareAll .nonTerminal {} text.names)
  rw [hnames] at hletters hlettered
  have hwritten : ofText text = text.items.foldl addItem (declareAll .terminal
    (declareAll .nonTerminal {} text.names) text.letters).withSpecial := rfl
  generalize declareAll .terminal (declareAll .nonTerminal {} text.names) text.letters = lettered
    at hletters hlettered hrules hwritten
  obtain ⟨hallNames, hallLetters⟩ := symbols_foldl_addItem lettered.withSpecial text.items
  have hspecialNames : lettered.withSpecial.nonTerminals = text.names.eraseDups :=
    (nonTerminals_withSpecial _).trans hlettered
  have hspecial : lettered.withSpecial.terminals =
      (text.letters.filter (· ∉ text.names)).eraseDups ++
        [endOfInput, emptyText].filter (· ∉ text.names ++ text.letters) := by
    rw [terminals_withSpecial, hletters, hlettered]
    congr 1
    · simp
    · refine List.filter_congr fun symbol _ => ?_
      by_cases h : symbol ∈ text.names <;> simp [h]
  have hnonTerminals : (ofText text).nonTerminals = text.names.eraseDups := by
    rw [hwritten, hallNames, hspecialNames]
  refine ⟨hnonTerminals, ?_, fun symbol => ?_⟩
  · exact (congrArg Grammar.terminals hwritten).trans (hallLetters.trans hspecial)
  · have hstart : (ofText text).start? = text.names.head? := by
      rw [start?, hnonTerminals, head?_eraseDups]
    have hkind : lettered.withSpecial.kindOf? symbol = some .nonTerminal ↔ symbol ∈ text.names := by
      rw [kindOf?_eq_nonTerminal_iff, hspecialNames, List.mem_eraseDups]
      rw [hspecial, hspecialNames, List.mem_eraseDups]
      simp only [List.mem_append, List.mem_eraseDups, List.mem_filter, decide_eq_true_eq, not_or]
      rintro (hletter | hadded)
      · exact hletter.2
      · exact hadded.2.1
    have hnoRules : lettered.withSpecial.alternatives symbol = [] := by
      unfold alternatives withSpecial
      rw [rules_declare, rules_declare, hrules]
      rfl
    have hgiven : (ofText text).alternatives symbol =
        if symbol ∈ text.names then text.items.filterMap (RuleItem.alternative? symbol)
        else [] := by
      rw [hwritten, alternatives_foldl_addItem, hnoRules]
      simp only [hkind, List.nil_append]
    rw [alternatives_freeze, hstart, hgiven]
    unfold GrammarText.alternatives
    by_cases hname : symbol ∈ text.names
    · simp [hname, eq_comm]
    · simp [hname]

end Grammar

end LineGrammar

import LineGrammar.Grammar.Fault
import LineGrammar.Grammar.Follow
import LineGrammar.Text.Blank

/-!
# Drafts of grammars

A grammar is written as words. First come the non-terminals, then the terminals, then the rules;
each of these groups and each rule ends with the end-of-group marker, and the end-of-grammar marker
ends it all. A rule is a key, the separator, and the symbols of its body.

A `Draft` is a grammar of which some words have been read. A word that does not fit halts the draft
for good; a rule for a symbol that takes none is read and left out. At the end the draft is frozen:
its sets are found, and words after that are passed over.
-/

namespace LineGrammar

/-- The words that structure a grammar text. -/
structure Markers where
  endGroup : String := "#"
  endGrammar : String := "##"
  separator : String := "->"
  deriving DecidableEq, Repr

/-- Where in a rule a draft is. -/
inductive RulePhase where
  | expectKey
  | expectSeparator (key : String)
  /-- The key is left out while the body of a rejected rule is read. -/
  | inBody (key : Option String) (body : List String)
  deriving DecidableEq, Repr

/-- Which part of a grammar text a draft is in. -/
inductive DraftStage where
  | nonTerminals
  | terminals
  | rules (phase : RulePhase)
  | finished
  deriving DecidableEq, Repr

structure Draft where
  markers : Markers := {}
  grammar : Grammar := {}
  stage : DraftStage := .nonTerminals
  faults : List GrammarFault := []
  /-- How many words have been read. -/
  position : Nat := 0

namespace Draft

/-- The outcome of a step: the draft after it, and the error if it failed. -/
abbrev Outcome := Draft × Except GrammarError Unit

def isHalted (draft : Draft) : Bool :=
  draft.faults.any GrammarFault.isCritical

def isFinished (draft : Draft) : Bool :=
  draft.stage == .finished && !draft.isHalted

/-- The grammar, once it is finished. -/
def grammar? (draft : Draft) : Except GrammarError Grammar :=
  if draft.isHalted then .error .halted
  else if draft.stage = .finished then .ok draft.grammar
  else .error .unfinished

def record (draft : Draft) (fault : GrammarFault) : Draft :=
  { draft with faults := fault.record draft.faults }

def ok (draft : Draft) : Outcome :=
  (draft, .ok ())

def reject (draft : Draft) (fault : SyntaxFault) : Outcome :=
  (draft.record .malformed, .error (.malformed draft.position fault))

/-- Declares a symbol; a second declaration of one changes nothing. -/
def declare (draft : Draft) (kind : SymbolKind) (symbol : String) : Outcome :=
  match draft.stage with
  | .nonTerminals | .terminals =>
    ok { draft with grammar := draft.grammar.declare kind symbol }
  | _ => draft.reject .lateDeclaration

/-- Starts a rule. Only declared non-terminals take rules. -/
def beginRule (draft : Draft) (key : String) : Outcome :=
  match draft.stage with
  | .rules _ =>
    match draft.grammar.kindOf? key with
    | some .nonTerminal => ok { draft with stage := .rules (.inBody (some key) []) }
    | some .terminal =>
      ok { draft.record .fixed with stage := .rules (.inBody none []) }
    | none => ok { draft.record .undeclared with stage := .rules (.inBody none []) }
  | _ => draft.reject .ruleOutsideSection

def appendSymbol (draft : Draft) (symbol : String) : Outcome :=
  match draft.stage with
  | .rules (.inBody key body) =>
    let known := (draft.grammar.kindOf? symbol).isSome
    let recorded := if known then draft else draft.record .undeclared
    ok { recorded with stage := .rules (.inBody key (body ++ [symbol])) }
  | _ => draft.reject .symbolOutsideBody

/-- Ends a rule. An empty body stands for the empty text. -/
def endRule (draft : Draft) : Draft :=
  match draft.stage with
  | .rules (.inBody (some key) body) =>
    let body := if body = [] then [emptyText] else body
    { draft with
      grammar := draft.grammar.addAlternative key body
      stage := .rules .expectKey }
  | .rules _ => { draft with stage := .rules .expectKey }
  | _ => draft

/-- Starts the rules, if there are symbols of both kinds, with the two terminals that have a meaning
of their own. -/
def enterRules (draft : Draft) : Outcome :=
  if draft.grammar.terminals = [] ∨ draft.grammar.nonTerminals = [] then
    draft.reject .nothingDeclared
  else
    ok { draft with
      grammar := (draft.grammar.declare .terminal endOfInput).declare .terminal emptyText
      stage := .rules .expectKey }

/-- The draft with the faults that non-terminals without rules are. -/
def recordRuleless (draft : Draft) : Draft :=
  let ruleless := draft.grammar.nonTerminals.filter fun symbol => !draft.grammar.hasRules symbol
  let recorded := if ruleless = [] then draft else draft.record .ruleless
  match draft.grammar.start? with
  | some start => if start ∈ ruleless then recorded.record .fixed else recorded
  | none => recorded

def freeze (draft : Draft) : Outcome :=
  match draft.stage with
  | .finished => (draft, draft.grammar?.map fun _ => ())
  | .rules .expectKey =>
    let terminated := { draft with grammar := draft.grammar.terminateStart }
    let recorded := terminated.recordRuleless
    ok { recorded with grammar := recorded.grammar.withSets, stage := .finished }
  | .rules _ => draft.reject .endInsideRule
  | _ => draft.reject .endBeforeRules

def feedRuleWord (draft : Draft) (word : String) (phase : RulePhase) : Outcome :=
  let endsGroup := word == draft.markers.endGroup
  let separates := word == draft.markers.separator
  match phase with
  | .expectKey =>
    if endsGroup then draft.ok
    else if separates then draft.reject .separatorWithoutKey
    else ok { draft with stage := .rules (.expectSeparator word) }
  | .expectSeparator key =>
    if separates then draft.beginRule key
    else draft.reject (.missingSeparator draft.markers.separator)
  | .inBody _ _ =>
    if endsGroup then draft.endRule.ok
    else if separates then draft.reject .separatorInBody
    else draft.appendSymbol word

def feedWord (draft : Draft) (word : String) : Outcome :=
  if draft.isHalted then (draft, .error .halted)
  else
    let draft := { draft with position := draft.position + 1 }
    let endsGroup := word == draft.markers.endGroup
    if draft.stage = .finished then draft.ok
    else if word = draft.markers.endGrammar then draft.freeze
    else
      match draft.stage with
      | .nonTerminals =>
        if endsGroup then ok { draft with stage := .terminals }
        else draft.declare .nonTerminal word
      | .terminals => if endsGroup then draft.enterRules else draft.declare .terminal word
      | .rules phase => draft.feedRuleWord word phase
      | .finished => draft.ok

/-- Reads words up to the first that does not fit. -/
def feedWords (draft : Draft) : List String → Outcome
  | [] => draft.ok
  | word :: words =>
    match draft.feedWord word with
    | (draft, .ok ()) => draft.feedWords words
    | (draft, .error error) => (draft, .error error)

def wordsOf (text : String) : List String :=
  (Text.words text.toList).map String.ofList

def feedText (draft : Draft) (text : String) : Outcome :=
  draft.feedWords (wordsOf text)

def clear (draft : Draft) : Draft :=
  { markers := draft.markers }

def report (draft : Draft) : List String :=
  GrammarFault.report draft.faults

end Draft

end LineGrammar

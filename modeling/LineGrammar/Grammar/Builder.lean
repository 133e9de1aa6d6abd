import LineGrammar.Grammar.Draft
import LineGrammar.Grammar.Table

/-!
# Builders of grammars

A `Builder` reads a grammar text as a `Draft` does, but keeps what it knows in separate fields: a
table with its maps, the stage, the phase of the rule that is being read, the key that waits for its
separator, the key and the body of the rule. Each operation changes some of these fields and leaves
the others as they are, whether they have a meaning in that stage and phase or not.
-/

namespace LineGrammar

namespace Builder

inductive Stage where
  | nonTerminals
  | terminals
  | rules
  | finished
  deriving DecidableEq, Repr

inductive Phase where
  | expectKey
  | expectSeparator
  | body
  deriving DecidableEq, Repr

end Builder

structure Builder where
  markers : Markers := {}
  table : Table := {}
  stage : Builder.Stage := .nonTerminals
  phase : Builder.Phase := .expectKey
  pendingKey : Option String := none
  /-- There is none while the body of a rejected rule is read. -/
  key : Option String := none
  body : List String := []
  faults : List GrammarFault := []
  /-- How many words have been read. -/
  position : Nat := 0

namespace Builder

/-- The outcome of a step: the builder after it, and the error if it failed. -/
abbrev Outcome := Builder × Except GrammarError Unit

def isHalted (builder : Builder) : Bool :=
  builder.faults.any GrammarFault.isCritical

/-- The table, once it is finished. -/
def table? (builder : Builder) : Except GrammarError Table :=
  if builder.isHalted then .error .halted
  else if builder.stage = .finished then .ok builder.table
  else .error .unfinished

def record (builder : Builder) (fault : GrammarFault) : Builder :=
  { builder with faults := fault.record builder.faults }

def ok (builder : Builder) : Outcome :=
  (builder, .ok ())

def reject (builder : Builder) (fault : SyntaxFault) : Outcome :=
  (builder.record .malformed, .error (.malformed builder.position fault))

def declare (builder : Builder) (kind : SymbolKind) (symbol : String) : Outcome :=
  if builder.stage = .rules ∨ builder.stage = .finished then builder.reject .lateDeclaration
  else ok { builder with table := builder.table.declare kind symbol }

def beginRule (builder : Builder) (key : String) : Outcome :=
  if builder.stage ≠ .rules then builder.reject .ruleOutsideSection
  else
    let begun :=
      match builder.table.kindOf? key with
      | some .nonTerminal => { builder with key := some key }
      | some .terminal => { builder.record .fixed with key := none }
      | none => { builder.record .undeclared with key := none }
    ok { begun with body := [], phase := .body }

def appendSymbol (builder : Builder) (symbol : String) : Outcome :=
  if builder.phase ≠ .body then builder.reject .symbolOutsideBody
  else
    let known := (builder.table.kindOf? symbol).isSome
    let recorded := if known then builder else builder.record .undeclared
    ok { recorded with body := recorded.body ++ [symbol] }

/-- Ends a rule, in any stage and phase. An empty body stands for the empty text. -/
def endRule (builder : Builder) : Builder :=
  let ended := { builder with body := [], key := none, phase := .expectKey }
  match builder.key with
  | some key =>
    let body := if builder.body = [] then [emptyText] else builder.body
    { ended with table := builder.table.pushAlternative key body }
  | none => ended

def enterRules (builder : Builder) : Outcome :=
  if builder.table.terminals = [] ∨ builder.table.nonTerminals = [] then
    builder.reject .nothingDeclared
  else
    ok { builder with
      table := (builder.table.declare .terminal endOfInput).declare .terminal emptyText
      stage := .rules }

def recordRuleless (builder : Builder) (symbol : String) : Builder :=
  if builder.table.hasRules symbol then builder
  else
    let recorded := builder.record .ruleless
    if builder.table.start? = some symbol then recorded.record .fixed else recorded

def freeze (builder : Builder) : Outcome :=
  if builder.stage = .finished then (builder, builder.table?.map fun _ => ())
  else if builder.stage ≠ .rules then builder.reject .endBeforeRules
  else if builder.phase ≠ .expectKey then builder.reject .endInsideRule
  else
    let terminated := { builder with table := builder.table.terminateStart }
    let recorded := terminated.table.nonTerminals.foldl recordRuleless terminated
    ok { recorded with table := recorded.table.computeSets, stage := .finished }

def feedRuleWord (builder : Builder) (word : String) : Outcome :=
  let endsGroup := word == builder.markers.endGroup
  let separates := word == builder.markers.separator
  match builder.phase with
  | .expectKey =>
    if endsGroup then builder.ok
    else if separates then builder.reject .separatorWithoutKey
    else ok { builder with pendingKey := some word, phase := .expectSeparator }
  | .expectSeparator =>
    if separates then
      { builder with pendingKey := none }.beginRule (builder.pendingKey.getD "")
    else builder.reject (.missingSeparator builder.markers.separator)
  | .body =>
    if endsGroup then builder.endRule.ok
    else if separates then builder.reject .separatorInBody
    else builder.appendSymbol word

def feedWord (builder : Builder) (word : String) : Outcome :=
  if builder.isHalted then (builder, .error .halted)
  else
    let builder := { builder with position := builder.position + 1 }
    let endsGroup := word == builder.markers.endGroup
    if builder.stage = .finished then builder.ok
    else if word = builder.markers.endGrammar then builder.freeze
    else
      match builder.stage with
      | .nonTerminals =>
        if endsGroup then ok { builder with stage := .terminals }
        else builder.declare .nonTerminal word
      | .terminals => if endsGroup then builder.enterRules else builder.declare .terminal word
      | .rules => builder.feedRuleWord word
      | .finished => builder.ok

/-- Reads words up to the first that does not fit. -/
def feedWords (builder : Builder) : List String → Outcome
  | [] => builder.ok
  | word :: words =>
    match builder.feedWord word with
    | (builder, .ok ()) => builder.feedWords words
    | (builder, .error error) => (builder, .error error)

def feedText (builder : Builder) (text : String) : Outcome :=
  builder.feedWords (Draft.wordsOf text)

def clear (builder : Builder) : Builder :=
  { markers := builder.markers }

end Builder

end LineGrammar

import LineGrammar.Grammar.SymbolSet

/-!
# Grammars

A grammar declares non-terminals and terminals and gives alternatives for non-terminals. The first
non-terminal is the start symbol. Two terminals have a meaning of their own: `#` stands for the
empty text, and `$` for the end of the input. The FIRST and FOLLOW sets are kept beside the rules
once they are known.
-/

namespace LineGrammar

def emptyText : String := "#"

def endOfInput : String := "$"

inductive SymbolKind where
  | terminal
  | nonTerminal
  deriving DecidableEq, Repr

/-- One way to write a non-terminal. -/
abbrev Alternative := List String

structure Grammar where
  nonTerminals : List String := []
  terminals : List String := []
  /-- The alternatives of each rule key, keys in the order in which they were first given. -/
  rules : List (String × List Alternative) := []
  firstSets : List (String × SymbolSet) := []
  followSets : List (String × SymbolSet) := []

namespace Grammar

def isTerminal (grammar : Grammar) (symbol : String) : Bool :=
  grammar.terminals.contains symbol

def isNonTerminal (grammar : Grammar) (symbol : String) : Bool :=
  grammar.nonTerminals.contains symbol

def kindOf? (grammar : Grammar) (symbol : String) : Option SymbolKind :=
  if grammar.isTerminal symbol then some .terminal
  else if grammar.isNonTerminal symbol then some .nonTerminal
  else none

/-- Declares a symbol. A symbol that is known already keeps its kind. -/
def declare (grammar : Grammar) (kind : SymbolKind) (symbol : String) : Grammar :=
  if (grammar.kindOf? symbol).isSome then grammar
  else
    match kind with
    | .terminal => { grammar with terminals := grammar.terminals ++ [symbol] }
    | .nonTerminal => { grammar with nonTerminals := grammar.nonTerminals ++ [symbol] }

def start? (grammar : Grammar) : Option String :=
  grammar.nonTerminals.head?

def ruleKeys (grammar : Grammar) : List String :=
  grammar.rules.map (·.1)

def hasRules (grammar : Grammar) (symbol : String) : Bool :=
  (grammar.rules.lookup symbol).isSome

def alternatives (grammar : Grammar) (symbol : String) : List Alternative :=
  (grammar.rules.lookup symbol).getD []

/-- The rules with one more alternative at the end of those of `key`. -/
def addAlternativeTo (key : String) (alternative : Alternative) :
    List (String × List Alternative) → List (String × List Alternative)
  | [] => [(key, [alternative])]
  | (other, alternatives) :: rest =>
    if other = key then (other, alternatives ++ [alternative]) :: rest
    else (other, alternatives) :: addAlternativeTo key alternative rest

def addAlternative (grammar : Grammar) (key : String) (alternative : Alternative) : Grammar :=
  { grammar with rules := addAlternativeTo key alternative grammar.rules }

/-- The alternative with the end of the input as its last symbol. -/
def terminated (alternative : Alternative) : Alternative :=
  if alternative.getLast? = some endOfInput then alternative else alternative ++ [endOfInput]

/-- Lets every alternative of the start symbol end with the end of the input. -/
def terminateStart (grammar : Grammar) : Grammar :=
  { grammar with
    rules := grammar.rules.map fun (key, alternatives) =>
      (key, if some key = grammar.start? then alternatives.map terminated else alternatives) }

def firstSet? (grammar : Grammar) (symbol : String) : Option SymbolSet :=
  grammar.firstSets.lookup symbol

def followSet? (grammar : Grammar) (symbol : String) : Option SymbolSet :=
  grammar.followSets.lookup symbol

/-- The kept FIRST set of any symbol; a terminal is the only member of its own. -/
def firstOfSymbol (grammar : Grammar) (symbol : String) : SymbolSet :=
  if grammar.isTerminal symbol then .singleton symbol
  else (grammar.firstSet? symbol).getD ∅

/-- One line for each non-terminal whose set is known, in the order of declaration. -/
def describeSets (grammar : Grammar) (label : String) (sets : List (String × SymbolSet)) :
    List String :=
  grammar.nonTerminals.filterMap fun symbol =>
    (sets.lookup symbol).map fun set =>
      let members :=
        if set.members = [] then "" else String.intercalate ", " set.members ++ " "
      label ++ "(" ++ symbol ++ ") = \x7b " ++ members ++ "\x7d"

def describeFirst (grammar : Grammar) : List String :=
  grammar.describeSets "FIRST" grammar.firstSets

def describeFollow (grammar : Grammar) : List String :=
  grammar.describeSets "FOLLOW" grammar.followSets

end Grammar

end LineGrammar

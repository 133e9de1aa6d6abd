import LineGrammar.Grammar.Follow

/-!
# Grammar tables

A `Table` is a grammar that is kept to be looked up in. Beside the two lists of symbols it has a map
from each declared symbol to its kind, and beside the rules a map from each rule key to its place
there. Questions about kinds and rules are answered from the maps, so that each operation has to
keep maps and lists together.

A map is a list of pairs. A name is added to it only where it has no pair yet.
-/

namespace LineGrammar

structure Table where
  nonTerminals : List String := []
  terminals : List String := []
  kinds : List (String × SymbolKind) := []
  /-- The alternatives of each rule key, keys in the order in which they were first given. -/
  rules : List (String × List Alternative) := []
  ruleIndex : List (String × Nat) := []
  firstSets : List (String × SymbolSet) := []
  followSets : List (String × SymbolSet) := []

namespace Table

def kindOf? (table : Table) (symbol : String) : Option SymbolKind :=
  table.kinds.lookup symbol

/-- Declares a symbol. A symbol that is known already keeps its kind. -/
def declare (table : Table) (kind : SymbolKind) (symbol : String) : Table :=
  if (table.kindOf? symbol).isSome then table
  else
    let table := { table with kinds := table.kinds ++ [(symbol, kind)] }
    match kind with
    | .terminal => { table with terminals := table.terminals ++ [symbol] }
    | .nonTerminal => { table with nonTerminals := table.nonTerminals ++ [symbol] }

def start? (table : Table) : Option String :=
  table.nonTerminals.head?

def hasRules (table : Table) (symbol : String) : Bool :=
  (table.ruleIndex.lookup symbol).isSome

def alternatives (table : Table) (symbol : String) : List Alternative :=
  match table.ruleIndex.lookup symbol with
  | some index => (table.rules[index]?.map (·.2)).getD []
  | none => []

def modifyRule (table : Table) (index : Nat) (change : List Alternative → List Alternative) :
    Table :=
  { table with
    rules := table.rules.modify index fun (key, alternatives) => (key, change alternatives) }

def addKey (table : Table) (key : String) : Table :=
  { table with
    rules := table.rules ++ [(key, [])]
    ruleIndex := table.ruleIndex ++ [(key, table.rules.length)] }

def pushAlternative (table : Table) (key : String) (alternative : Alternative) : Table :=
  match table.ruleIndex.lookup key with
  | some index => table.modifyRule index (· ++ [alternative])
  | none => (table.addKey key).modifyRule table.rules.length (· ++ [alternative])

/-- Lets every alternative of the start symbol end with the end of the input. -/
def terminateStart (table : Table) : Table :=
  match table.start? with
  | none => table
  | some start =>
    match table.ruleIndex.lookup start with
    | some index => table.modifyRule index (·.map Grammar.terminated)
    | none => table

/-- What FIRST and FOLLOW sets are found from. Which symbols are terminals is looked up in the
kinds. -/
def view (table : Table) : Grammar where
  nonTerminals := table.nonTerminals
  terminals := (table.kinds.filter (·.2 = .terminal)).map (·.1)
  rules := table.rules

def first (table : Table) (symbol : String) : SymbolSet × FirstStatus :=
  table.view.first symbol

def follow (table : Table) (symbol : String) : SymbolSet :=
  table.view.follow symbol

def computeSets (table : Table) : Table :=
  { table with
    firstSets := table.nonTerminals.map fun symbol => (symbol, (table.first symbol).1)
    followSets := table.nonTerminals.map fun symbol => (symbol, table.follow symbol) }

def firstSet? (table : Table) (symbol : String) : Option SymbolSet :=
  table.firstSets.lookup symbol

def followSet? (table : Table) (symbol : String) : Option SymbolSet :=
  table.followSets.lookup symbol

/-- The grammar of a table: the table without the maps. -/
def grammar (table : Table) : Grammar where
  nonTerminals := table.nonTerminals
  terminals := table.terminals
  rules := table.rules
  firstSets := table.firstSets
  followSets := table.followSets

end Table

end LineGrammar

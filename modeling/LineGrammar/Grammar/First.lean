import LineGrammar.Grammar

/-!
# FIRST sets

`Grammar.first` collects the terminals that texts of a symbol may begin with, and tells whether the
symbol may stand for the empty text. It walks down the alternatives. An occurrence of a symbol in an
alternative is entered only while it is free, that is, not being walked already further up; so the
walk ends, with fewer and fewer free occurrences. The end of the input at the end of an alternative
is left out.
-/

namespace LineGrammar

/-- What a walk for a FIRST set found. -/
inductive FirstStatus where
  /-- Texts of the symbol begin with the terminals found. -/
  | terminal
  /-- Nothing was found. -/
  | nonTerminal
  /-- The symbol may stand for the empty text. -/
  | epsilon
  deriving DecidableEq, Repr

/-- A place where a symbol stands: the rule key, the number of the alternative, the position in it.
-/
structure Occurrence where
  key : String
  alternative : Nat
  position : Nat
  deriving DecidableEq

namespace Grammar

def occurrences (grammar : Grammar) : List Occurrence :=
  grammar.rules.flatMap fun (key, alternatives) =>
    alternatives.zipIdx.flatMap fun (alternative, index) =>
      (List.range alternative.length).map (Occurrence.mk key index)

/-- The alternative without the end of the input at its end. -/
def openBody (alternative : Alternative) : Alternative :=
  if alternative.getLast? = some endOfInput then alternative.dropLast else alternative

/-- What a terminal by itself begins with. -/
def firstOfTerminal (symbol : String) : SymbolSet × FirstStatus :=
  if symbol = endOfInput then (∅, .nonTerminal)
  else if symbol = emptyText then (.singleton symbol, .epsilon)
  else (.singleton symbol, .terminal)

/-- What a non-terminal begins with, from what its alternatives do and whether one may be empty. -/
def firstOfAll (found : SymbolSet) (nullable : Bool) : SymbolSet × FirstStatus :=
  if nullable then (found.insert emptyText, .epsilon)
  else
    let set := found.erase emptyText
    (set, if set = ∅ then .nonTerminal else .terminal)

mutual

/-- What a symbol begins with, if only these occurrences may be entered. -/
def firstWithin (grammar : Grammar) (free : List Occurrence) (symbol : String) :
    SymbolSet × FirstStatus :=
  if grammar.isTerminal symbol then firstOfTerminal symbol
  else
    match grammar.rules.lookup symbol with
    | none => (∅, .nonTerminal)
    | some alternatives =>
      let (found, nullable) := firstOfAlternatives grammar free symbol 0 alternatives
      firstOfAll found nullable
termination_by (free.length, 2, 0)

/-- What the alternatives of `key` from number `index` on begin with, and whether one of them may be
empty. -/
def firstOfAlternatives (grammar : Grammar) (free : List Occurrence) (key : String) (index : Nat) :
    List Alternative → SymbolSet × Bool
  | [] => (∅, false)
  | alternative :: rest =>
    let body := openBody alternative
    let (found, nullable) := firstOfBody grammar free ⟨key, index, 0⟩ body
    let (others, othersNullable) := firstOfAlternatives grammar free key (index + 1) rest
    (found ∪ others, (!body.isEmpty && nullable) || othersNullable)
termination_by alternatives => (free.length, 1, alternatives.length)

/-- What a stretch of an alternative begins with, and whether all of it may be empty. -/
def firstOfBody (grammar : Grammar) (free : List Occurrence) (place : Occurrence) :
    List String → SymbolSet × Bool
  | [] => (∅, true)
  | symbol :: rest =>
    if _free : place ∈ free then
      match firstWithin grammar (free.erase place) symbol with
      | (found, .epsilon) =>
        let next := { place with position := place.position + 1 }
        let (others, nullable) := firstOfBody grammar free next rest
        (found ∪ others, nullable)
      | (found, _) => (found, false)
    else (∅, false)
termination_by body => (free.length, 0, body.length)
decreasing_by
  · have := List.length_pos_of_mem _free
    rw [List.length_erase_of_mem _free]
    exact Prod.Lex.left _ _ (by omega)
  · simp [Prod.lex_def]

end

/-- What the texts of a symbol may begin with. -/
def first (grammar : Grammar) (symbol : String) : SymbolSet × FirstStatus :=
  grammar.firstWithin grammar.occurrences symbol

end Grammar

end LineGrammar

import LineGrammar.Grammar.First

/-!
# FOLLOW sets

What may come after a symbol is found from the rests of the alternatives behind its occurrences. A
rest that may be empty lets everything follow that follows the rule key. So `Grammar.follow` goes on
to the key there, and from it to other keys, but only once from each alternative: one list of the
alternatives that are unvisited is handed on through the whole walk, which ends as it gets shorter.
-/

namespace LineGrammar

/-- An alternative of the rules: its rule key, and its number among those of the key. -/
structure Production where
  key : String
  index : Nat
  deriving DecidableEq

/-- What a walk for a FOLLOW set found, and which alternatives it left unvisited. -/
@[ext]
structure Followed (unvisited : List Production) where
  found : SymbolSet
  left : List Production
  length_le : left.length ≤ unvisited.length

theorem Production.length_filter_ne_lt {production : Production} {productions : List Production}
    (h : production ∈ productions) :
    (productions.filter (· ≠ production)).length < productions.length :=
  List.length_filter_lt_length_iff_exists.mpr ⟨production, h, by simp⟩

namespace Grammar

def productions (grammar : Grammar) : List Production :=
  grammar.rules.flatMap fun (key, alternatives) =>
    (List.range alternatives.length).map (Production.mk key)

/-- The rests of a list behind the occurrences of a symbol. -/
def restsAfter (symbol : String) : List String → List (List String)
  | [] => []
  | other :: rest =>
    if other = symbol then rest :: restsAfter symbol rest else restsAfter symbol rest

/-- For each occurrence of a symbol in the rules, its alternative and what comes behind it there. -/
def behind (grammar : Grammar) (symbol : String) : List (Production × List String) :=
  grammar.rules.flatMap fun (key, alternatives) =>
    alternatives.zipIdx.flatMap fun (alternative, index) =>
      (restsAfter symbol alternative).map (Prod.mk ⟨key, index⟩)

/-- What a rest of an alternative begins with, and whether one may get past all of it. The end of
the input is collected and passed over. -/
def followOfRest (grammar : Grammar) : List String → SymbolSet × Bool
  | [] => (∅, true)
  | symbol :: rest =>
    if symbol = endOfInput then
      let (others, passed) := followOfRest grammar rest
      (others.insert endOfInput, passed)
    else
      match grammar.first symbol with
      | (found, .epsilon) =>
        let (others, passed) := followOfRest grammar rest
        (found.erase emptyText ∪ others, passed)
      | (found, _) => (found.erase emptyText, false)

mutual

/-- What may come after a symbol, if one may go on from these alternatives only. -/
def followWithin (grammar : Grammar) (unvisited : List Production) (symbol : String) :
    Followed unvisited :=
  let behind := followOfOccurrences grammar unvisited symbol (grammar.behind symbol)
  if grammar.start? = some symbol then { behind with found := behind.found.insert endOfInput }
  else behind
termination_by (unvisited.length, 1, 0)

/-- What comes behind some occurrences of a symbol. Where one may get to the end of an alternative
of another key, that is unvisited, it is visited, and what may come after its key is found too. -/
def followOfOccurrences (grammar : Grammar) (unvisited : List Production) (symbol : String) :
    List (Production × List String) → Followed unvisited
  | [] => ⟨∅, unvisited, Nat.le_refl _⟩
  | (production, rest) :: occurrences =>
    let (direct, passed) := grammar.followOfRest rest
    if enters : passed = true ∧ production.key ≠ symbol ∧ production ∈ unvisited then
      have shorter := Production.length_filter_ne_lt enters.2.2
      let through := followWithin grammar (unvisited.filter (· ≠ production)) production.key
      have le : through.left.length ≤ unvisited.length :=
        Nat.le_trans through.length_le (Nat.le_of_lt shorter)
      let later := followOfOccurrences grammar through.left symbol occurrences
      ⟨direct ∪ through.found ∪ later.found, later.left, Nat.le_trans later.length_le le⟩
    else
      let later := followOfOccurrences grammar unvisited symbol occurrences
      ⟨direct ∪ later.found, later.left, later.length_le⟩
termination_by occurrences => (unvisited.length, 0, occurrences.length)
decreasing_by
  · exact Prod.Lex.left _ _ shorter
  · exact Prod.Lex.left _ _ (Nat.lt_of_le_of_lt through.length_le shorter)
  · exact Prod.Lex.right _ (Prod.Lex.right _ (Nat.lt_succ_self _))

end

/-- What may come after a symbol. -/
def follow (grammar : Grammar) (symbol : String) : SymbolSet :=
  (grammar.followWithin grammar.productions symbol).found

/-- Keeps the FIRST and FOLLOW sets of all non-terminals. -/
def withSets (grammar : Grammar) : Grammar :=
  { grammar with
    firstSets := grammar.nonTerminals.map fun symbol => (symbol, (grammar.first symbol).1)
    followSets := grammar.nonTerminals.map fun symbol => (symbol, grammar.follow symbol) }

end Grammar

end LineGrammar

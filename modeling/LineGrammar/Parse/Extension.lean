import LineGrammar.Grammar
import LineGrammar.Tree

/-!
# Reading a symbol on

A node that has read the beginning of some alternatives of its symbol can be extended by reading the
rest of one of them. Of the alternatives that fit the tokens, the one that takes the most tokens is
chosen, and of those the one with the smallest part settled; the first of several equal ones.

The tokens may end in the middle of an alternative: what has been read of it is kept. Before a token
a symbol is entered only while it is free, that is, not being read already from that same token; so
the reading ends, with fewer tokens left or fewer free symbols.
-/

namespace LineGrammar

/-- What a sequence of symbols made of the tokens: new nodes, the number of tokens in them, and the
number of symbols that are settled, that is, read as far as they need to be. -/
structure Stretch where
  nodes : List Tree
  consumed : Nat
  settled : Nat

namespace Stretch

def empty : Stretch := ⟨[], 0, 0⟩

/-- A settled node in front. -/
def cons (node : Tree) (consumed : Nat) (rest : Stretch) : Stretch :=
  ⟨node :: rest.nodes, consumed + rest.consumed, rest.settled + 1⟩

end Stretch

/-- An alternative that fits: what it reads anew, and how many of all its symbols are settled then.
-/
structure Fit where
  stretch : Stretch
  settled : Nat
  length : Nat

namespace Fit

def isFull (fit : Fit) : Bool :=
  fit.settled == fit.length

/-- Does the alternative take more tokens than the other one, or as many with less of it settled? -/
def isBetterThan (fit other : Fit) : Bool :=
  other.stretch.consumed < fit.stretch.consumed ||
    (fit.stretch.consumed == other.stretch.consumed &&
      fit.settled * other.length < other.settled * fit.length)

/-- The better of a choice and a later alternative. -/
def prefer (choice : Option Fit) (fit : Fit) : Option Fit :=
  match choice with
  | none => some fit
  | some best => if fit.isBetterThan best then some fit else some best

end Fit

/-- How a symbol can be read on. -/
structure Extension where
  nodes : List Tree
  consumed : Nat
  completion : Completion

namespace Extension

/-- The best of the alternatives that fit. It is complete if all of it is settled; if all of another
one is, it may still become complete by itself. -/
def choose (fits : List Fit) : Option Extension :=
  (fits.foldl Fit.prefer none).map fun best =>
    let completion : Completion :=
      if best.isFull then .complete
      else if fits.any Fit.isFull then .maybe
      else .incomplete
    ⟨best.stretch.nodes, best.stretch.consumed, completion⟩

/-- The node of a symbol that is read anew. -/
def toNode (extension : Extension) (symbol : String) (line : Nat) : Tree :=
  ⟨symbol, none, extension.completion, false, line, extension.nodes⟩

end Extension

namespace Grammar

/-- Does the token belong to the terminal? None belongs to the end of the input. -/
def accepts (grammar : Grammar) (terminal : String) (token : Token) : Bool :=
  terminal != endOfInput && token.lexeme.belongsTo grammar.isTerminal terminal

mutual

/-- Reads symbols from left to right, unless a token contradicts one of them. The second part of the
answer is the furthest position at which a terminal met a token that does not belong to it, where
the tokens start at position `offset`. -/
def readSequence (grammar : Grammar) (line : Nat) (free : List String) (offset : Nat)
    (tokens : List Token) : List String → Option Stretch × Nat
  | [] => (some .empty, 0)
  | symbol :: symbols =>
    if symbol = emptyText then
      let (rest, furthest) := readSequence grammar line free offset tokens symbols
      (rest.map (.cons (.leaf emptyText none line) 0), furthest)
    else
      match tokens with
      | [] => (some .empty, 0)
      | token :: later =>
        if grammar.isTerminal symbol then
          if grammar.accepts symbol token then
            let (rest, furthest) :=
              readSequence grammar line grammar.ruleKeys (offset + 1) later symbols
            (rest.map (.cons (.leaf symbol (some token) line) 1), furthest)
          else (none, offset)
        else if _free : symbol ∈ free then
          let (fits, furthest) := readAlternatives grammar line (free.erase symbol) offset
            (token :: later) [] (grammar.alternatives symbol)
          match Extension.choose fits with
          | none => (none, furthest)
          | some extension =>
            let node := extension.toNode symbol line
            if extension.completion = .incomplete then
              (some ⟨[node], extension.consumed, 0⟩, furthest)
            else
              let (rest, further) :=
                match extension.consumed with
                | 0 => readSequence grammar line free offset (token :: later) symbols
                | consumed + 1 =>
                  readSequence grammar line grammar.ruleKeys (offset + consumed + 1)
                    (later.drop consumed) symbols
              (rest.map (.cons node extension.consumed), max furthest further)
        else (none, 0)
termination_by symbols => (tokens.length, free.length, 0, symbols.length)
decreasing_by
  · exact Prod.Lex.right _ (Prod.Lex.right _ (Prod.Lex.right _ (by simp)))
  · exact Prod.Lex.left _ _ (by simp)
  · have := List.length_pos_of_mem _free
    rw [List.length_erase_of_mem _free]
    exact Prod.Lex.right _ (Prod.Lex.left _ _ (by omega))
  · exact Prod.Lex.right _ (Prod.Lex.right _ (Prod.Lex.right _ (by simp)))
  · exact Prod.Lex.left _ _ (by simp only [List.length_drop, List.length_cons]; omega)

/-- Reads the rest of each alternative that starts with the `existing` symbols and is longer. -/
def readAlternatives (grammar : Grammar) (line : Nat) (free : List String) (offset : Nat)
    (tokens : List Token) (existing : List String) : List Alternative → List Fit × Nat
  | [] => ([], 0)
  | alternative :: alternatives =>
    let (fits, furthest) :=
      readAlternatives grammar line free offset tokens existing alternatives
    if existing.isPrefixOf alternative && existing.length < alternative.length then
      match readSequence grammar line free offset tokens (alternative.drop existing.length) with
      | (none, further) => (fits, max further furthest)
      | (some stretch, further) =>
        (⟨stretch, existing.length + stretch.settled, alternative.length⟩ :: fits,
          max further furthest)
    else (fits, furthest)
termination_by alternatives => (tokens.length, free.length, 1, alternatives.length)
decreasing_by
  · exact Prod.Lex.right _ (Prod.Lex.right _ (Prod.Lex.right _ (by simp)))
  · exact Prod.Lex.right _ (Prod.Lex.right _ (Prod.Lex.left _ _ (by omega)))

end

/-- Reads a symbol on from nodes that are there already. The second part of the answer is the
furthest position of a token that some alternative refused. -/
def readOn (grammar : Grammar) (line : Nat) (symbol : String) (existing : List Tree)
    (tokens : List Token) : Option Extension × Nat :=
  let (fits, furthest) := grammar.readAlternatives line grammar.ruleKeys 0 tokens
    (existing.map (·.symbol)) (grammar.alternatives symbol)
  (Extension.choose fits, furthest)

end Grammar

end LineGrammar

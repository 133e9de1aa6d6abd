import LineGrammar.Parse.Growth

/-!
# Parsing line by line

A parse is a tree that grows with each line of tokens. A line that does not fit is refused as a
whole: the edits that were made for its first tokens are reverted, and a tree that the line has begun
is dropped. The line is counted all the same.
-/

namespace LineGrammar

structure Parse where
  root : Option Tree := none
  /-- How many lines have been fed. -/
  line : Nat := 0

namespace Parse

def isComplete (parse : Parse) : Bool :=
  match parse.root with
  | some root => root.completion == .complete
  | none => false

/-- Feeds a line of tokens, and tells whether more input is expected. -/
def feed (parse : Parse) (grammar : Grammar) (tokens : List Token) :
    Parse × Except ParseError Bool :=
  if tokens = [] then (parse, .ok (!parse.isComplete))
  else
    match grammar.start? with
    | none => (parse, .error .noStartSymbol)
    | some start =>
      let line := parse.line + 1
      match grammar.growAll line { tree := parse.root.getD (.branch start line) } tokens with
      | (growth, .error error) =>
        (⟨parse.root.map fun _ => growth.reverted, line⟩, .error error)
      | (growth, .ok ()) =>
        let grown : Parse := ⟨some growth.tree, line⟩
        (grown, .ok (!grown.isComplete))

end Parse

end LineGrammar

import LineGrammar.Yaml.Text

/-!
# Gaps between words

A scalar may go on over several lines. What then stands between two of its words is a `Gap`, and
`Gap.fold` tells what is left of it in the value: blanks on one line stay; of a single line feed a
space is left, and of several in a row all but the first.
-/

namespace LineGrammar.Yaml

inductive Gap where
  /-- Blanks on one line. -/
  | blanks (text : List Char)
  /-- Line ends and the blanks around them: the first line end, unless it does not count, and the
  others. -/
  | lines (first : Option Char) (others : List Char)
  deriving DecidableEq, Repr

namespace Gap

def none : Gap :=
  blanks []

/-- The gap with one more blank or line end. -/
def push (c : Char) : Gap → Gap
  | blanks text => if isBreak c then lines (some c) [] else blanks (text ++ [c])
  | lines first others => lines first (if isBreak c then others ++ [c] else others)

def isNone : Gap → Bool
  | blanks text => text.isEmpty
  | lines _ _ => false

/-- Does the gap go over the end of a line? -/
def isBroken : Gap → Bool
  | blanks _ => false
  | lines _ _ => true

/-- What is left of a gap in the value of a scalar. -/
def fold : Gap → List Char
  | blanks text => text
  | lines (some '\n') [] => [' ']
  | lines (some '\n') others => others
  | lines first others => first.toList ++ others

end Gap

end LineGrammar.Yaml

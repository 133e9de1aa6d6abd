import LineGrammar.Yaml.Scalar.Gap

/-!
# Plain scalars

A plain scalar starts with a character that has no meaning of its own there. It ends at a colon
behind which a word ends, at a comment, at a mark of a document, between brackets also at the marks
of the bracket, and in a block at a line that is indented less than the block.
-/

namespace LineGrammar.Yaml

/-- Characters that have a meaning of their own at the start of a scalar. -/
def indicators : List Char :=
  ['-', '?', ':', ',', '[', ']', '\x7b', '\x7d', '#', '&', '*', '!', '|', '>', '\'', '"', '%', '@',
    '\x60']

/-- Characters that end a plain scalar between brackets. -/
def flowMarks : List Char :=
  [',', '[', ']', '\x7b', '\x7d']

/-- May a plain scalar start with `c` when `text` follows? A dash only starts one if a word goes on
behind it, and so does a question mark or a colon outside of brackets. -/
def startsPlain (inFlow : Bool) (c : Char) (text : List Char) : Bool :=
  if c = '-' ∨ (!inFlow ∧ (c = '?' ∨ c = ':')) then !endsWord text
  else !indicators.contains c && !isSpace c

/-- What has been read of a plain scalar. -/
structure Plain where
  text : List Char
  /-- How many characters are passed over, with the gap behind the scalar. -/
  length : Nat
  /-- Does the gap behind the scalar go over the end of a line? -/
  isBroken : Bool
  deriving DecidableEq, Repr

namespace Plain

/-- The end of a scalar, with a gap in front that has been passed over. -/
def ended (gap : Gap) : Plain :=
  ⟨[], 0, gap.isBroken⟩

def skipped (tail : Plain) : Plain :=
  { tail with length := tail.length + 1 }

/-- One more character of the scalar, behind a gap. -/
def grown (gap : Gap) (c : Char) (tail : Plain) : Plain :=
  { tail with text := gap.fold ++ c :: tail.text, length := tail.length + 1 }

/-- Does a scalar end before the word `text` that follows a gap? -/
def endsAtWord (margin : Nat) (inFlow : Bool) (column : Nat) (text : List Char) : Bool :=
  (!inFlow && column < margin) || (column == 0 && startsDocumentMark text) ||
    text.head? == some '#'

/-- Does a scalar end before the character `c` when `text` follows? -/
def endsAt (inFlow : Bool) (c : Char) (text : List Char) : Bool :=
  (c == ':' && endsWord text) || (inFlow && flowMarks.contains c)

/-- Between brackets a colon in a scalar must not stand in front of a mark. -/
def isRefused (inFlow : Bool) (c : Char) (text : List Char) : Bool :=
  inFlow && c == ':' && text.head?.any fun d => d == '?' || flowMarks.contains d

/-- Reads a plain scalar, in a block whose lines start in column `margin` or later. The text starts
in this column behind this gap. Tabs must not indent the lines of a block. -/
def read? (margin : Nat) (inFlow : Bool) (column : Nat) (gap : Gap) : List Char → Option Plain
  | [] => some (ended gap)
  | c :: text =>
    if isSpace c then
      if c = '\t' ∧ gap.isBroken ∧ column < margin then none
      else (read? margin inFlow (columnAfter column c) (gap.push c) text).map skipped
    else if !gap.isNone ∧ endsAtWord margin inFlow column (c :: text) then some (ended gap)
    else if isRefused inFlow c text then none
    else if endsAt inFlow c text then some (ended gap)
    else (read? margin inFlow (column + 1) .none text).map (grown gap c)

end Plain

end LineGrammar.Yaml

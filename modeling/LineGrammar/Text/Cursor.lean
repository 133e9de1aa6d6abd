/-!
# Places in a text

A `Place` tells where in a text a character stands, and a `Cursor` goes through a text and knows its
place.
-/

namespace LineGrammar

/-- A place of a text: lines are counted from one, the characters of a line from zero. -/
structure Place where
  line : Nat
  column : Nat
  deriving DecidableEq, Repr, Inhabited

namespace Place

/-- The place after one more character. -/
def step (place : Place) (c : Char) : Place :=
  if c = '\n' then ⟨place.line + 1, 0⟩ else ⟨place.line, place.column + 1⟩

/-- The place after reading a stretch of text. -/
def after (place : Place) (text : List Char) : Place :=
  text.foldl step place

def describe (place : Place) : String :=
  "line " ++ toString place.line ++ ", column " ++ toString place.column

end Place

/-- What is left of a text, and the place where that starts. -/
structure Cursor where
  rest : List Char
  place : Place
  deriving DecidableEq, Repr

namespace Cursor

/-- The cursor before a text whose first line has this number. -/
def ofText (text : String) (line : Nat) : Cursor :=
  ⟨text.toList, ⟨line, 0⟩⟩

def advance (cursor : Cursor) (n : Nat) : Cursor :=
  ⟨cursor.rest.drop n, cursor.place.after (cursor.rest.take n)⟩

end Cursor

end LineGrammar

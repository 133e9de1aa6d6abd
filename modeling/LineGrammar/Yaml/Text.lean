import LineGrammar.Text.Cursor

/-!
# Characters of YAML texts

Lines end with a line feed, a line separator or a paragraph separator; `unifyBreaks` turns the other
line ends into line feeds. Columns are counted in characters, and blanks are spaces and tabs.
-/

namespace LineGrammar.Yaml

/-- May the character stand in a text? Control characters may not, apart from tabs and line ends. -/
def isAllowed (c : Char) : Bool :=
  let n := c.toNat
  n == 0x9 || n == 0xA || n == 0xD || n == 0x85 || (0x20 ≤ n && n ≤ 0x7E) ||
    (0xA0 ≤ n && n ≤ 0xFFFD) || 0x10000 ≤ n

/-- Makes line feeds of carriage returns and next line characters; a carriage return in front of a
line feed belongs to it. -/
def unifyBreaks : List Char → List Char
  | [] => []
  | '\r' :: '\n' :: text => '\n' :: unifyBreaks text
  | c :: text => (if c = '\r' ∨ c = '\u0085' then '\n' else c) :: unifyBreaks text

def isBreak (c : Char) : Bool :=
  c == '\n' || c == '\u2028' || c == '\u2029'

def isBlank (c : Char) : Bool :=
  c == ' ' || c == '\t'

/-- Does the character stand between words? -/
def isSpace (c : Char) : Bool :=
  isBlank c || isBreak c

/-- Is this the end of the text or a place where words end? -/
def endsWord : List Char → Bool
  | [] => true
  | c :: _ => isSpace c

/-- May the character stand in a name? -/
def isNameChar (c : Char) : Bool :=
  c.isAlphanum || c == '_' || c == '-'

/-- Are there three dashes or points here as a word of their own? At the start of a line they mark
where a document starts or ends. -/
def startsDocumentMark : List Char → Bool
  | '-' :: '-' :: '-' :: text => endsWord text
  | '.' :: '.' :: '.' :: text => endsWord text
  | _ => false

/-- The characters up to the end of the line. -/
def lineOf (text : List Char) : List Char :=
  text.takeWhile fun c => !isBreak c

/-! ## Hexadecimal digits -/

def hexValue? (c : Char) : Option Nat :=
  if c.isDigit then some (c.toNat - '0'.toNat)
  else if 'a' ≤ c ∧ c ≤ 'f' then some (c.toNat - 'a'.toNat + 10)
  else if 'A' ≤ c ∧ c ≤ 'F' then some (c.toNat - 'A'.toNat + 10)
  else none

def ofHex? (digits : List Char) : Option Nat :=
  digits.foldlM (fun n c => (hexValue? c).map (16 * n + ·)) 0

/-! ## Places -/

def columnAfter (column : Nat) (c : Char) : Nat :=
  if isBreak c then 0 else column + 1

def placeAfter (place : Place) (c : Char) : Place :=
  if isBreak c then ⟨place.line + 1, 0⟩ else ⟨place.line, place.column + 1⟩

/-- The cursor `n` characters further on. -/
def skip (cursor : Cursor) (n : Nat) : Cursor :=
  ⟨cursor.rest.drop n, (cursor.rest.take n).foldl placeAfter cursor.place⟩

theorem rest_skip (cursor : Cursor) (n : Nat) : (skip cursor n).rest = cursor.rest.drop n :=
  rfl

end LineGrammar.Yaml

import LineGrammar.Yaml.Scalar.Gap

/-!
# Quoted scalars

In single quotes a quote is written twice, and all else stands for itself. In double quotes a
backslash starts an escape; at the end of a line it says that the line end does not count. The lines
of both are folded, and none of them may be a mark of a document.

The readers start behind the first quote, in a given column and behind a given gap. They give the
text, and how many characters are passed over with the last quote.
-/

namespace LineGrammar.Yaml

/-- Puts text in front of what has been read further on, which took `length` characters more. -/
def prepend (length : Nat) (text : List Char) (tail : List Char × Nat) : List Char × Nat :=
  (text ++ tail.1, tail.2 + length)

def readSingleQuoted? (column : Nat) (gap : Gap) : List Char → Option (List Char × Nat)
  | [] => none
  | '\'' :: '\'' :: text =>
    (readSingleQuoted? (column + 2) .none text).map (prepend 2 (gap.fold ++ ['\'']))
  | '\'' :: _ => some (gap.fold, 1)
  | c :: text =>
    if isSpace c then
      (readSingleQuoted? (columnAfter column c) (gap.push c) text).map (prepend 1 [])
    else if column = 0 ∧ startsDocumentMark (c :: text) then none
    else (readSingleQuoted? (column + 1) .none text).map (prepend 1 (gap.fold ++ [c]))

/-- The character that a letter behind a backslash stands for. -/
def escaped? : Char → Option Char
  | '0' => some '\x00'
  | 'a' => some '\x07'
  | 'b' => some '\x08'
  | 't' => some '\t'
  | '\t' => some '\t'
  | 'n' => some '\n'
  | 'v' => some '\x0b'
  | 'f' => some '\x0c'
  | 'r' => some '\r'
  | 'e' => some '\x1b'
  | ' ' => some ' '
  | '"' => some '"'
  | '/' => some '/'
  | '\\' => some '\\'
  | 'N' => some '\u0085'
  | '_' => some '\u00a0'
  | 'L' => some '\u2028'
  | 'P' => some '\u2029'
  | _ => none

/-- How many hexadecimal digits follow a letter behind a backslash. -/
def hexLength : Char → Nat
  | 'x' => 2
  | 'u' => 4
  | 'U' => 8
  | _ => 0

/-- The character of an escape whose letter is `c`, when `text` follows. -/
def readEscape? (c : Char) (text : List Char) : Option Char :=
  let length := hexLength c
  if length = 0 then escaped? c
  else if text.length < length then none
  else (ofHex? (text.take length)).bind fun code =>
    if code.isValidChar then some (Char.ofNat code) else none

def readDoubleQuoted? (column : Nat) (gap : Gap) : List Char → Option (List Char × Nat)
  | [] => none
  | '"' :: _ => some (gap.fold, 1)
  | '\\' :: c :: text =>
    if isBreak c then (readDoubleQuoted? 0 (.lines none []) text).map (prepend 2 gap.fold)
    else do
      let character ← readEscape? c text
      let length := hexLength c
      let tail ← readDoubleQuoted? (column + 2 + length) .none (text.drop length)
      return prepend (2 + length) (gap.fold ++ [character]) tail
  | c :: text =>
    if isSpace c then
      (readDoubleQuoted? (columnAfter column c) (gap.push c) text).map (prepend 1 [])
    else if column = 0 ∧ startsDocumentMark (c :: text) then none
    else (readDoubleQuoted? (column + 1) .none text).map (prepend 1 (gap.fold ++ [c]))
termination_by text => text.length
decreasing_by all_goals simp only [List.length_cons, List.length_drop]; omega

end LineGrammar.Yaml

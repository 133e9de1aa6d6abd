import LineGrammar.Number.Reading
import LineGrammar.Text.Blank
import LineGrammar.Text.Letter
import LineGrammar.Text.Numeral
import LineGrammar.Token

/-!
# Reading tokens

Between tokens there are blanks and comments, which start with two slashes and last to the end of
the line. A word starts with a letter or an underscore and goes on with these and numerals. A number
is a stretch of digits, with a point and more digits if it is a real one. Quoted text stays on one
line and has no escapes. All else is a mark of one or two characters.

A `Cursor` goes through a text. Reading a token that is there moves it past that token; a number
that is too large and a quotation without its end are passed over as well, but it stays before a
character that starts no token.
-/

namespace LineGrammar

inductive LexError where
  | unexpectedCharacter (character : Char) (place : Place)
  | invalidNumber (literal : String) (place : Place)
  | unterminatedQuotation (place : Place)
  deriving DecidableEq, Repr

def LexError.message : LexError → String
  | unexpectedCharacter character place =>
    "Unexpected character '" ++ character.toString ++ "' at " ++ place.describe
  | invalidNumber literal place =>
    "Invalid number literal '" ++ literal ++ "' at " ++ place.describe
  | unterminatedQuotation place => "Unterminated string literal at " ++ place.describe

namespace Lexeme

def startsWord (c : Char) : Bool :=
  Text.isLetter c || c == '_'

/-- May a word go on with this character? -/
def continuesWord (c : Char) : Bool :=
  Text.isLetter c || Text.isNumeral c || c == '_'

/-- The marks of two characters. They are read before those of one. -/
def doubleMarks : List (Char × Char) :=
  [('<', '='), ('>', '='), ('<', '>'), ('!', '='), (':', '=')]

def singleMarks : List Char :=
  ['+', '-', '*', '/', '=', '<', '>', '(', ')', '{', '}', '[', ']', ';', ':', ',', '.']

/-- The length of the blanks and comments in front of a text that starts inside a comment or not. -/
def triviaLength : Bool → List Char → Nat
  | _, [] => 0
  | true, c :: text => triviaLength (c != '\n') text + 1
  | false, '/' :: '/' :: text => triviaLength true text + 2
  | false, c :: text => if Text.isBlank c then triviaLength false text + 1 else 0

/-- Why the text at the cursor is no token, before a place is known. -/
inductive Fault where
  | unexpected (character : Char)
  | invalid (literal : List Char)
  | unterminated
  deriving DecidableEq, Repr

def Fault.locate (place : Place) : Fault → LexError
  | unexpected character => .unexpectedCharacter character place
  | invalid literal => .invalidNumber (String.ofList literal) place
  | unterminated => .unterminatedQuotation place

/-- Reads quoted text after its first quote: how many characters are passed over, and the result. -/
def scanQuoted (text : List Char) : Nat × Except Fault Lexeme :=
  let body := text.takeWhile fun c => c != '"' && c != '\n'
  match text.drop body.length with
  | '"' :: _ => (body.length + 1, .ok (quoted (String.ofList body)))
  | _ :: _ => (body.length + 1, .error .unterminated)
  | [] => (body.length, .error .unterminated)

/-- The digits after a point, at the start of a text. -/
def fractionDigits : List Char → List Char
  | '.' :: text => text.takeWhile Char.isDigit
  | _ => []

/-- Reads a number. It is a real one if a point and a digit follow its digits. -/
def scanNumber (text : List Char) : Nat × Except Fault Lexeme :=
  let whole := text.takeWhile Char.isDigit
  let fraction := fractionDigits (text.drop whole.length)
  if fraction = [] then
    match Number.readInt64? whole with
    | some value => (whole.length, .ok (integer value))
    | none => (whole.length, .error (.invalid whole))
  else
    let literal := whole ++ '.' :: fraction
    match Number.readReal? literal with
    | some value => (literal.length, .ok (real value))
    | none => (literal.length, .error (.invalid literal))

def scanMark (c : Char) (text : List Char) : Nat × Except Fault Lexeme :=
  match text.head?.filter fun d => (c, d) ∈ doubleMarks with
  | some d => (2, .ok (mark (String.ofList [c, d])))
  | none =>
    if c ∈ singleMarks then (1, .ok (mark (String.ofList [c])))
    else (0, .error (.unexpected c))

/-- Reads a token at the very start of `c :: text`. -/
def scan (c : Char) (text : List Char) : Nat × Except Fault Lexeme :=
  if c = '"' then
    let (length, result) := scanQuoted text
    (length + 1, result)
  else if startsWord c then
    let word := c :: text.takeWhile continuesWord
    (word.length, .ok (Lexeme.word (String.ofList word)))
  else if c.isDigit then scanNumber (c :: text)
  else scanMark c text

end Lexeme

namespace Cursor

def skipTrivia (cursor : Cursor) : Cursor :=
  cursor.advance (Lexeme.triviaLength false cursor.rest)

def next (cursor : Cursor) : Cursor × Except LexError (Option Token) :=
  let start := cursor.skipTrivia
  match start.rest with
  | [] => (start, .ok none)
  | c :: text =>
    match Lexeme.scan c text with
    | (length, .ok lexeme) => (start.advance length, .ok (some ⟨lexeme, start.place⟩))
    | (length, .error fault) => (start.advance length, .error (fault.locate start.place))

end Cursor

namespace Lexeme

theorem scan_length_pos {c : Char} {text : List Char} {lexeme : Lexeme}
    (h : (scan c text).2 = .ok lexeme) : 0 < (scan c text).1 := by
  unfold scan at h ⊢
  split
  · exact Nat.succ_pos _
  · split
    · simp
    · split
      · next hq hw hd =>
        simp only [hq, hw, hd, if_true, if_false, Bool.false_eq_true] at h
        have hpos : 0 < ((c :: text).takeWhile Char.isDigit).length := by
          simp [hd]
        unfold scanNumber
        dsimp only
        split <;> split
        · exact hpos
        · exact hpos
        · exact Nat.lt_of_lt_of_le hpos (by simp)
        · exact Nat.lt_of_lt_of_le hpos (by simp)
      · next hq hw hd =>
        simp only [hq, hw, hd, if_false, Bool.false_eq_true] at h
        unfold scanMark at h ⊢
        split
        · exact Nat.succ_pos _
        · split
          · exact Nat.succ_pos _
          · next h1 h2 => simp [h1, h2] at h

end Lexeme

namespace Cursor

theorem length_skipTrivia_le (cursor : Cursor) :
    cursor.skipTrivia.rest.length ≤ cursor.rest.length := by
  simp [skipTrivia, advance]

theorem length_next_lt {cursor after : Cursor} {token : Token}
    (h : cursor.next = (after, .ok (some token))) : after.rest.length < cursor.rest.length := by
  have hskip := cursor.length_skipTrivia_le
  unfold next at h
  dsimp only at h
  split at h
  · simp at h
  · next c text hrest =>
    split at h
    · next length lexeme hscan =>
      have hpos := @Lexeme.scan_length_pos c text lexeme (by rw [hscan])
      rw [hscan] at hpos
      obtain ⟨rfl, -⟩ := Prod.mk.inj h
      rw [hrest] at hskip
      simp only [advance, hrest, List.length_drop, List.length_cons] at hskip ⊢
      omega
    · simp at h

def tokens (cursor : Cursor) : Except LexError (List Token) :=
  match _next : cursor.next with
  | (_, .error error) => .error error
  | (_, .ok none) => .ok []
  | (after, .ok (some token)) => do
    let rest ← after.tokens
    return token :: rest
termination_by cursor.rest.length
decreasing_by exact length_next_lt _next

end Cursor

def tokenize (text : String) (line : Nat) : Except LexError (List Token) :=
  (Cursor.ofText text line).tokens

end LineGrammar

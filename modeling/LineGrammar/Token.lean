import LineGrammar.Number.Writing
import LineGrammar.Text.Cursor

/-!
# Tokens

A token of program text is a word, a number, a quoted text or a punctuation mark, at a place of the
text. The lexer knows no grammar: keywords are words until they are compared with the terminals of
one. A terminal stands either for a class of tokens, such as all numbers, or for the one word or
mark that it spells.
-/

namespace LineGrammar

/-- What a token is, wherever it stands. -/
inductive Lexeme where
  | word (text : String)
  | integer (value : Int64)
  | real (value : Float)
  | quoted (text : String)
  | mark (text : String)
  deriving DecidableEq

structure Token where
  lexeme : Lexeme
  place : Place
  deriving DecidableEq

namespace Lexeme

/-- The text to compare with a terminal that spells one word or mark. Quoted text has none, so that
no quotation is taken for a keyword. -/
def spelling : Lexeme → Option String
  | word text => some text
  | mark text => some text
  | _ => none

/-- The text of a token, without the place where it stood. -/
def text : Lexeme → String
  | word text => text
  | mark text => text
  | integer value => String.ofList (Number.intText value.toInt)
  | real value => Number.realText value
  | quoted text => "\"" ++ text ++ "\""

/-- Does the token belong to the terminal? `isKeyword` tells the words that are no identifiers. -/
def belongsTo (isKeyword : String → Bool) (lexeme : Lexeme) (terminal : String) : Bool :=
  if terminal = "ID" then
    match lexeme with
    | word text => !isKeyword text
    | _ => false
  else if terminal = "NUM" then
    match lexeme with
    | integer _ => true
    | real _ => true
    | _ => false
  else if terminal = "PRIM_INT" then
    match lexeme with
    | integer _ => true
    | _ => false
  else if terminal = "PRIM_REAL" then
    match lexeme with
    | real _ => true
    | _ => false
  else if terminal = "PRIM_STRING" then
    match lexeme with
    | quoted _ => true
    | _ => false
  else lexeme.spelling == some terminal

end Lexeme

namespace Token

def spelling (token : Token) : Option String :=
  token.lexeme.spelling

def text (token : Token) : String :=
  token.lexeme.text

end Token

end LineGrammar

import LineGrammar.Number.Reading
import LineGrammar.Number.Writing
import LineGrammar.Text.Blank

/-!
# Values

A program works with whole numbers of 64 bits, real numbers and texts. Values of declared variables
are converted to one of four primitive types; text is read as a number where one is needed.
-/

namespace LineGrammar

inductive Value where
  | int (value : Int64)
  | real (value : Float)
  | text (value : String)
  deriving DecidableEq

/-- The names of the primitive types. -/
def boolType : String := "PRIM_BOOL"

def stringType : String := "PRIM_STRING"

def intType : String := "PRIM_INT"

def realType : String := "PRIM_REAL"

namespace Value

instance : Inhabited Value := ⟨int 0⟩

/-- What a slot of a variable of this type holds at first. -/
def defaultOf (type : String) : Value :=
  if type = realType then real (Number.ofInt 0)
  else if type = stringType then text ""
  else int 0

/-- The primitive type that the value is of by itself. -/
def typeName : Value → String
  | int _ => intType
  | real _ => realType
  | text _ => stringType

def display : Value → String
  | int value => String.ofList (Number.intText value.toInt)
  | real value => Number.storedText value
  | text value => value

/-- The value as a real number, if it is a number. -/
def toReal? : Value → Option Float
  | int value => some (Number.ofInt value.toInt)
  | real value => some value
  | text _ => none

/-- Is the number neither infinite nor undefined? -/
def isFinite (value : Float) : Bool :=
  match Number.Binary64.ofFloat value with
  | .finite _ _ _ => true
  | _ => false

/-- The longest beginning of a text that is an optional sign and digits. -/
def leadingDigits : List Char → List Char
  | [] => []
  | c :: rest =>
    if c.isDigit || c == '-' || c == '+' then c :: rest.takeWhile Char.isDigit else []

/-- Reads a text as a number: as a whole number or a finite real one, else as the whole number that
it begins with, else as zero. -/
def readNumber (text : List Char) : Value :=
  let trimmed := Text.trim text
  match Number.readInt64? trimmed with
  | some value => int value
  | none =>
    match (Number.readReal? trimmed).filter isFinite with
    | some value => real value
    | none => int ((Number.readInt64? (leadingDigits trimmed)).getD 0)

def toNumber : Value → Value
  | text value => readNumber value.toList
  | value => value

/-- The value as the number of a slot. -/
def toIndex? : Value → Option Nat
  | int value => if 0 ≤ value.toInt then some value.toInt.toNat else none
  | _ => none

def ofBool (holds : Bool) : Value :=
  int (if holds then 1 else 0)

/-- Reads a text as a whole number, cutting off the fraction of a real one. -/
def readWhole? (text : List Char) : Option Int64 :=
  let trimmed := Text.trim text
  Number.readInt64? trimmed <|> (Number.readReal? trimmed).map Number.truncate

def toInt? : Value → Option Value
  | int value => some (int value)
  | real value => some (int (Number.truncate value))
  | text value => (readWhole? value.toList).map int

def toRealValue? : Value → Option Value
  | int value => some (real (Number.ofInt value.toInt))
  | real value => some (real value)
  | text value => (Number.readReal? (Text.trim value.toList)).map real

/-- Whether the value counts as true: a number other than zero, or a nonempty text. -/
def isTrue : Value → Bool
  | int value => value != 0
  | real value => !(value == Number.ofInt 0)
  | text value => value != ""

/-- The value as one of this type. A type that is not primitive takes any value; only a text that
writes no number fails to be one. -/
def convert? (value : Value) (type : String) : Option Value :=
  if type = intType then value.toInt?
  else if type = realType then value.toRealValue?
  else if type = stringType then some (text value.display)
  else if type = boolType then some (ofBool value.isTrue)
  else some value

end Value

end LineGrammar

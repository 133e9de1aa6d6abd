import LineGrammar.Number.Binary64

/-!
# Reading numbers

Whole numbers are an optional sign and decimal digits, and have to fit into 64 bits. Real numbers
may have a point and an exponent besides, or be one of the words `inf`, `infinity` and `nan` in any
case; they are read as the nearest floating point number. The whole text has to be the number: no
blanks.
-/

namespace LineGrammar.Number

def digitValue (c : Char) : Nat :=
  c.toNat - '0'.toNat

/-- The number that decimal digits write. -/
def ofDigits (digits : List Char) : Nat :=
  digits.foldl (fun n c => 10 * n + digitValue c) 0

/-- The number that a nonempty text of digits writes. -/
def readNat? (text : List Char) : Option Nat :=
  if text ≠ [] ∧ text.all Char.isDigit then some (ofDigits text) else none

/-- Is there a minus in front, and what follows the sign? -/
def splitSign : List Char → Bool × List Char
  | '-' :: text => (true, text)
  | '+' :: text => (false, text)
  | text => (false, text)

/-- Reads a whole number of any size. -/
def readInt? (text : List Char) : Option Int :=
  let (negative, digits) := splitSign text
  (readNat? digits).map fun n => if negative then -(n : Int) else n

def readInt64? (text : List Char) : Option Int64 :=
  (readInt? text).bind int64?

/-- The floating point number nearest to `± digits * 10 ^ exponent`. Beyond `10 ^ 400` all are
infinite, and below `10 ^ -399` all are zero. -/
def ofDecimal (negative : Bool) (digits : Nat) (exponent : Int) : Float :=
  if digits = 0 then signed negative 0
  else if 400 < exponent then infinity negative
  else if exponent < -400 - digits.log2 then signed negative 0
  else nearest negative (digits * tenTo exponent.toNat) (tenTo (-exponent).toNat)

/-- Reads what may follow the digits of a real number: nothing, or `e` and a whole number. -/
def readExponent? : List Char → Option Int
  | [] => some 0
  | c :: text => if c = 'e' ∨ c = 'E' then readInt? text else none

/-- Reads a real number without its sign that is written in digits. -/
def readUnsigned? (negative : Bool) (text : List Char) : Option Float :=
  let (whole, rest) := text.span Char.isDigit
  let (fraction, rest) :=
    match rest with
    | '.' :: rest => rest.span Char.isDigit
    | _ => ([], rest)
  if whole = [] ∧ fraction = [] then none
  else
    (readExponent? rest).map fun exponent =>
      ofDecimal negative (ofDigits (whole ++ fraction)) (exponent - fraction.length)

def readReal? (text : List Char) : Option Float :=
  let (negative, rest) := splitSign text
  let word := String.ofList (rest.map Char.toLower)
  if word = "nan" then some nan
  else if word = "inf" ∨ word = "infinity" then some (infinity negative)
  else readUnsigned? negative rest

end LineGrammar.Number

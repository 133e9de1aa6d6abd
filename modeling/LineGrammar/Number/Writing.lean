import LineGrammar.Number.Binary64
import LineGrammar.Number.Shortest

/-!
# Writing numbers

Whole numbers are written in decimal. Real numbers are written in two ways, never with an exponent:
`realText` takes the shortest decimal that reads back, and `storedText` writes a number without a
fraction exactly, with one zero after the point.
-/

namespace LineGrammar.Number

def natText (n : Nat) : List Char :=
  Nat.toDigits 10 n

def intText (n : Int) : List Char :=
  if n < 0 then '-' :: natText n.natAbs else natText n.natAbs

/-- The digits of `digits * 10 ^ place`, with a point where one is needed. -/
def positional (digits : List Char) (place : Int) : List Char :=
  if 0 ≤ place then digits ++ List.replicate place.toNat '0'
  else
    let places := (-place).toNat
    if places < digits.length then
      digits.take (digits.length - places) ++ '.' :: digits.drop (digits.length - places)
    else ['0', '.'] ++ List.replicate (places - digits.length) '0' ++ digits

def withSign (negative : Bool) (text : List Char) : List Char :=
  if negative then '-' :: text else text

/-- Writes a finite number without its sign as its shortest decimal. -/
def shortestText (mantissa : Nat) (exponent : Int) : List Char :=
  if mantissa = 0 then ['0']
  else
    let (digits, place) := shortest mantissa exponent
    positional (natText digits) place

/-- Writes a finite number without its sign; one without a fraction exactly and with one decimal. -/
def exactOrShortestText (mantissa : Nat) (exponent : Int) : List Char :=
  if isWhole mantissa exponent then
    natText (mantissa * twoTo exponent.toNat / twoTo (-exponent).toNat) ++ ['.', '0']
  else shortestText mantissa exponent

/-- Writes a real number; `finite` writes the finite ones without their sign. -/
def writeReal (finite : Nat → Int → List Char) (x : Float) : String :=
  match Binary64.ofFloat x with
  | .nan => "NaN"
  | .infinite negative => String.ofList (withSign negative ['i', 'n', 'f'])
  | .finite negative mantissa exponent =>
    String.ofList (withSign negative (finite mantissa exponent))

/-- A real number as its shortest decimal. -/
def realText (x : Float) : String :=
  writeReal shortestText x

/-- A real number as a stored value shows it. -/
def storedText (x : Float) : String :=
  writeReal exactOrShortestText x

end LineGrammar.Number

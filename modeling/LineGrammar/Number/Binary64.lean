import LineGrammar.Number.Power

/-!
# Binary floating point numbers, exactly

A finite 64-bit binary floating point number is `± m * 2 ^ e`. Here one is taken apart into these
three, and made from a fraction by rounding to the nearest, ties to the even neighbour. Whole
numbers go both ways.
-/

namespace LineGrammar.Number

/-- What a floating point number stands for. -/
inductive Binary64 where
  | finite (negative : Bool) (mantissa : Nat) (exponent : Int)
  | infinite (negative : Bool)
  | nan
  deriving DecidableEq, Repr

/-- Takes a floating point number apart. -/
def Binary64.ofFloat (x : Float) : Binary64 :=
  let bits := x.toBits.toNat
  let negative := decide (twoTo 63 ≤ bits)
  let power : Nat := bits / twoTo 52 % twoTo 11
  let fraction : Nat := bits % twoTo 52
  if power = 2047 then
    if fraction = 0 then .infinite negative else .nan
  else if power = 0 then .finite negative fraction (-1074)
  else .finite negative (twoTo 52 + fraction) ((power : Int) - 1075)

/-- The floating point number with these 63 low bits and this sign. -/
def signed (negative : Bool) (bits : Nat) : Float :=
  .ofBits (.ofNat (bits + if negative then twoTo 63 else 0))

def infinity (negative : Bool) : Float :=
  signed negative (2047 * twoTo 52)

def nan : Float :=
  signed false (2047 * twoTo 52 + twoTo 51)

/-- The whole number nearest to `num / den`; of two equally near ones the even one. -/
def roundToEven (num den : Nat) : Nat :=
  let below := num / den
  let twice := 2 * (num % den)
  if twice < den then below
  else if den < twice then below + 1
  else below + below % 2

/-- The exponent of the last binary place that a number of size `num / den` keeps. -/
def lastPlace (num den : Nat) : Int :=
  let guess := max ((num.log2 : Int) - den.log2 - 53) (-1074)
  if num * twoTo (-guess).toNat / (den * twoTo guess.toNat) < twoTo 53 then guess else guess + 1

/-- The floating point number nearest to `± num / den`; of two equally near ones the one with the
even last bit. -/
def nearest (negative : Bool) (num den : Nat) : Float :=
  if num = 0 then signed negative 0
  else
    let place := lastPlace num den
    let mantissa := roundToEven (num * twoTo (-place).toNat) (den * twoTo place.toNat)
    signed negative (min ((place + 1074).toNat * twoTo 52 + mantissa) (2047 * twoTo 52))

/-- The floating point number nearest to a whole number. -/
def ofInt (n : Int) : Float :=
  nearest (n < 0) n.natAbs 1

def int64? (n : Int) : Option Int64 :=
  if Int64.minValue.toInt ≤ n ∧ n ≤ Int64.maxValue.toInt then some (.ofInt n) else none

/-- The whole part of a number; the nearest 64-bit whole number where that one is too large, and
zero for what is no number. -/
def truncate (x : Float) : Int64 :=
  match Binary64.ofFloat x with
  | .nan => 0
  | .infinite negative => if negative then Int64.minValue else Int64.maxValue
  | .finite negative mantissa exponent =>
    let size : Int := ((mantissa * twoTo exponent.toNat / twoTo (-exponent).toNat : Nat) : Int)
    let whole := if negative then -size else size
    .ofInt (max Int64.minValue.toInt (min Int64.maxValue.toInt whole))

/-- Has a finite number no fraction? -/
def isWhole (mantissa : Nat) (exponent : Int) : Bool :=
  mantissa % twoTo (-exponent).toNat == 0

end LineGrammar.Number

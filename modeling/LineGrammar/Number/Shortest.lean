import LineGrammar.Number.Power

/-!
# Shortest decimals

The real numbers that round to the floating point number `m * 2 ^ e` form an interval. Its ends lie
half way to the two neighbours and belong to it when `m` is even. Of the decimals in the interval
`shortest` chooses one with the fewest digits, and of those the nearest to `m * 2 ^ e`, or the
larger of two equally near ones. It looks at one decimal place after the other, from the coarsest: a
place has a decimal in the interval only if one of the number's two neighbours on its grid is.
-/

namespace LineGrammar.Number

/-- Whole numbers of quarters of the last binary place, read on a decimal grid: `n` quarters are
`n * times / per` steps of the grid. -/
structure Grid where
  times : Nat
  per : Nat

/-- The grid of the multiples of `10 ^ place`, for the last binary place `exponent`. -/
def Grid.ofPlace (exponent place : Int) : Grid where
  times := twoTo (exponent - 2).toNat * tenTo (-place).toNat
  per := twoTo (2 - exponent).toNat * tenTo place.toNat

/-- The lower end, in quarters of the last place. A power of two has a nearer neighbour below, the
least one apart. -/
def lowerEnd (mantissa : Nat) (exponent : Int) : Nat :=
  if mantissa = twoTo 52 ∧ exponent ≠ -1074 then 4 * mantissa - 1 else 4 * mantissa - 2

/-- Is the grid point `n` in the interval? -/
def Grid.rounds (grid : Grid) (mantissa : Nat) (exponent : Int) (n : Nat) : Bool :=
  let low := lowerEnd mantissa exponent * grid.times
  let high := (4 * mantissa + 2) * grid.times
  let point := n * grid.per
  if mantissa % 2 = 0 then low ≤ point && point ≤ high else low < point && point < high

/-- The number's neighbour on the grid that rounds to it, the nearer one if both do. -/
def Grid.choose (grid : Grid) (mantissa : Nat) (exponent : Int) : Option Nat :=
  let value := 4 * mantissa * grid.times
  let below := value / grid.per
  match grid.rounds mantissa exponent below, grid.rounds mantissa exponent (below + 1) with
  | true, true => some (if grid.per ≤ 2 * (value % grid.per) then below + 1 else below)
  | true, false => some below
  | false, true => some (below + 1)
  | false, false => none

/-- Looks for a grid with a hit, from `10 ^ place` on to finer ones, through `fuel` grids. -/
def searchPlaces (mantissa : Nat) (exponent : Int) : Nat → Int → Nat × Int
  | 0, place =>
    let grid := Grid.ofPlace exponent place
    (4 * mantissa * grid.times / grid.per, place)
  | fuel + 1, place =>
    match (Grid.ofPlace exponent place).choose mantissa exponent with
    | some digits => (digits, place)
    | none => searchPlaces mantissa exponent fuel (place - 1)

/-- A decimal place above the leading digit of `mantissa * 2 ^ exponent`, from `log 2 < 0.30103`. -/
def leadingPlace (mantissa : Nat) (exponent : Int) : Int :=
  (mantissa.log2 + exponent + 1) * 30103 / 100000 + 2

/-- The shortest decimal `digits * 10 ^ place` that rounds to `mantissa * 2 ^ exponent`. -/
def shortest (mantissa : Nat) (exponent : Int) : Nat × Int :=
  searchPlaces mantissa exponent 24 (leadingPlace mantissa exponent)

end LineGrammar.Number

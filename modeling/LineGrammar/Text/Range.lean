/-!
# Ranges of code points

A character class given as an ascending list of closed ranges of code points, so that the search for
a code point ends at the first range that starts too late.
-/

namespace LineGrammar.Text

/-- Does `n` lie in one of the ranges of an ascending list? -/
def inRanges (n : Nat) : List (Nat × Nat) → Bool
  | [] => false
  | (low, high) :: rest => low ≤ n && (n ≤ high || inRanges n rest)

end LineGrammar.Text

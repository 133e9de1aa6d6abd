/-!
# Powers of two and of ten

The bases of binary and of decimal places.
-/

namespace LineGrammar.Number

def twoTo (n : Nat) : Nat :=
  Nat.pow 2 n

def tenTo (n : Nat) : Nat :=
  Nat.pow 10 n

end LineGrammar.Number

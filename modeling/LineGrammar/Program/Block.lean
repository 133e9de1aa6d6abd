import LineGrammar.Program.Assembly

/-!
# Blocks

A block says what a part of a tree has become: which of the emitted statements compute a condition,
which one branches on it, and which ones are the body. The statements of a block run in one order,
apart from jumps.

The last statement of the body of a loop that tests first does not belong to the rounds of the loop.
It is where the loop is left to, and stands behind the jump back.
-/

namespace LineGrammar.Assembly

/-- A condition: the statements that compute its sides, and the comparison of these. -/
structure Comparison where
  order : Order
  left : Access
  relation : Relation
  right : Access

/-- The branch on a comparison. -/
def Comparison.branch (comparison : Comparison) (onTrue onFalse : Option StatementId) : Action :=
  .branch (some comparison.left) (some comparison.right) (some comparison.relation) onTrue onFalse

inductive Block where
  /-- Statements without jumps. -/
  | line (order : Order)
  | append (first rest : Block)
  | conditional (test : Comparison) (branch : StatementId) (body : Block)
  /-- A conditional with another branch, to which `skip` does not let the body lead on. -/
  | choice (test : Comparison) (branch : StatementId) (body : Block) (skip : StatementId)
      (other : Block) (exit : StatementId)
  /-- A loop that tests first, and computes its condition again before it goes back. -/
  | whileLoop (test : Comparison) (branch : StatementId) (body : Block) (evaluation : Order)
      (back : StatementId)
  | repeatLoop (start : StatementId) (body : Block) (test : Comparison) (branch : StatementId)
      (exit : StatementId)

namespace Block

def empty : Block := .line []

/-- The round of a loop that tests first, and the last statement of its body behind it. -/
def round (body evaluation : Order) (back : StatementId) : Order :=
  body.dropLast ++ evaluation ++ [back] ++ body.getLast?.toList

def order : Block → Order
  | line order => order
  | append first rest => first.order ++ rest.order
  | conditional test branch body => test.order ++ [branch] ++ body.order
  | choice test branch body skip other exit =>
    test.order ++ [branch] ++ body.order ++ [skip] ++ other.order ++ [exit]
  | whileLoop test branch body evaluation back =>
    test.order ++ [branch] ++ round body.order evaluation back
  | repeatLoop start body test branch exit => [start] ++ body.order ++ test.order ++ [branch, exit]

end Block

end LineGrammar.Assembly

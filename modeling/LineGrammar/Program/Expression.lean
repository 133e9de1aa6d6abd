import LineGrammar.Program.Assembly

/-!
# Expressions

An expression becomes an access to its value and the statements that compute it. Operands are
separated by arithmetic operators, which are applied from left to right, each into a temporary
variable of its own. An index that is itself an element of an array is put into a temporary variable
first, so that accesses stay one level deep.
-/

namespace LineGrammar

namespace Tree

/-- The node at the bottom of a chain of only children. -/
def bottom : Tree → Tree
  | ⟨_, _, _, _, _, [only]⟩ => bottom only
  | tree => tree

/-- The mark that a node stands for, as rules such as `op -> +` make it. -/
def soleMark? (tree : Tree) : Option String :=
  match tree.bottom.token.map Token.lexeme with
  | some (.mark text) => some text
  | _ => none

/-- The arithmetic operator that a node stands for. -/
def arithmeticOp? (tree : Tree) : Option ArithmeticOp :=
  tree.soleMark?.bind ArithmeticOp.ofSymbol?

end Tree

namespace Assembly

/-- What operands and operators stand in a row, with the statements that compute the operands. -/
structure Row where
  order : Order := []
  operands : List Access := []
  operators : List ArithmeticOp := []

/-- The access that a leaf stands for: a variable or a constant. Words and marks of the grammar
stand for none. -/
def leafAccess (symbol : String) : Option Lexeme → Assembling (Option Access)
  | some (.word name) =>
    if symbol = "ID" then return some (.ofVariable (← variableNamed name)) else return none
  | some (.integer value) => return some (.ofConstant (.int value))
  | some (.real value) => return some (.ofConstant (.real value))
  | some (.quoted text) => return some (.ofConstant (.text text))
  | _ => return none

/-- Applies operators from left to right to a first operand and the others. -/
def applyAll (first : Access) : List (ArithmeticOp × Access) → Assembling (Order × Access)
  | [] => return ([], first)
  | second :: rest => do
    let (id, result) ← toTemporary first (some second)
    let (order, last) ← applyAll result rest
    return (id :: order, last)

/-- The value of a row, if it holds anything. There is one operand more than operators. -/
def ofRow (line : Nat) (row : Row) : Assembling (Order × Option Access) :=
  match row.operands with
  | [] =>
    if row.operators = [] then return (row.order, none)
    else throw (.malformedExpression line 0 row.operators.length)
  | first :: others => do
    if others.length ≠ row.operators.length then
      throw (.malformedExpression line (others.length + 1) row.operators.length)
    let (order, result) ← applyAll first (row.operators.zip others)
    return (row.order ++ order, some result)

/-- An index as a single operand. -/
def indexOperand (index : Access) : Assembling (Order × Operand) := do
  if index.index.isSome then
    let (id, copy) ← toTemporary index none
    return ([id], copy.base)
  else return ([], index.base)

mutual

/-- The access to the value of an expression, if it has one. Arrays are the nodes with the symbol
`array`. -/
def expression (array : String) : Tree → Assembling (Order × Option Access)
  | tree@⟨symbol, token, _, _, line, children⟩ => do
    if children.isEmpty then return ([], ← leafAccess symbol (token.map Token.lexeme))
    else if symbol = array then
      let (baseOrder, base) ← expressionAt array 0 children
      let base ← require tree .arrayName base
      if children.length < 3 then throw (.missingPart symbol .index line)
      let (indexOrder, index) ← expressionAt array 2 children
      let index ← require tree .index index
      let (copyOrder, index) ← indexOperand index
      return (baseOrder ++ indexOrder ++ copyOrder, some ⟨base.base, some index⟩)
    else ofRow line (← rowOf array children)

/-- The expression at a position among nodes. -/
def expressionAt (array : String) : Nat → List Tree → Assembling (Order × Option Access)
  | _, [] => return ([], none)
  | 0, tree :: _ => expression array tree
  | position + 1, _ :: trees => expressionAt array position trees

/-- The operands and operators in a row of nodes. -/
def rowOf (array : String) : List Tree → Assembling Row
  | [] => return {}
  | tree :: trees => do
    match tree.arithmeticOp? with
    | some operator =>
      let row ← rowOf array trees
      return { row with operators := operator :: row.operators }
    | none =>
      let (order, access) ← expression array tree
      let row ← rowOf array trees
      return { row with
        order := order ++ row.order
        operands := access.toList ++ row.operands }

end

/-- The value of operands and operators in a row of nodes. -/
def rowValue (array : String) (line : Nat) (trees : List Tree) :
    Assembling (Order × Option Access) := do
  ofRow line (← rowOf array trees)

end Assembly

end LineGrammar

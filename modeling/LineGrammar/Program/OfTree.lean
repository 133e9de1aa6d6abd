import LineGrammar.Program.Block
import LineGrammar.Program.Expression
import LineGrammar.Settings

/-!
# From trees to programs

The nodes of statements become statements; every other node becomes a statement that does nothing,
followed by what its children become.

A conditional branches to its body and to its other branch, or past the body. A loop that tests
first computes its condition before the branch and again at the end of its body, which leads back to
the branch. A loop that tests last leads back to its start.
-/

namespace LineGrammar

namespace Tree

/-- The first node of a symbol among the nodes below a row of nodes, at most so many levels down and
the upper levels first. -/
def findBelow (symbol : String) : Nat → List Tree → Option Tree
  | 0, _ => none
  | depth + 1, level =>
    let next := level.flatMap Tree.children
    (next.find? fun tree => tree.symbol == symbol) <|> findBelow symbol depth next

def isAssignmentMark (tree : Tree) : Bool :=
  match tree.token.bind Token.spelling with
  | some text => text == "=" || text == ":=" || text == ":"
  | none => false

/-- The position of the first node that is the mark of an assignment. -/
def assignmentMark? (trees : List Tree) : Option Nat :=
  trees.findIdx? isAssignmentMark

/-- The position of the first node that stands for a relation, and that relation. -/
def relation? : List Tree → Option (Nat × Relation)
  | [] => none
  | tree :: trees =>
    match tree.soleMark?.bind Relation.ofSymbol? with
    | some relation => some (0, relation)
    | none => (relation? trees).map fun (index, relation) => (index + 1, relation)

end Tree

namespace Assembly

def assignment (names : StatementNames) (node : Tree) : Assembling Order := do
  let operator ← require node .assignmentOperator (Tree.assignmentMark? node.children)
  if operator = 0 then throw (.missingPart node.symbol .target node.line)
  let (targetOrder, target) ← expressionAt names.array (operator - 1) node.children
  let target ← require node .target target
  if target.variableId?.isNone then throw (.constantTarget node.line)
  let (valueOrder, value) ←
    rowValue names.array node.line (node.children.drop (operator + 1))
  let value ← require node .value value
  let id ← emit (.assign (some target) (some value) none none)
  return targetOrder ++ valueOrder ++ [id]

def output (names : StatementNames) (node : Tree) : Assembling Order := do
  let (order, access) ← expressionAt names.array 1 node.children
  let access ← require node .operand access
  let id ← emit (.print (some access))
  return order ++ [id]

def call (names : StatementNames) (node : Tree) : Assembling Order := do
  let function ← require node .functionName node.firstToken?
  let (order, argument) ← expressionAt names.array 2 node.children
  let id ← emit (.call function.text argument)
  return order ++ [id]

/-- The condition of a node, with both sides in temporary variables. -/
def comparison (names : StatementNames) (node : Tree) : Assembling Comparison := do
  let condition ← require node .condition (Tree.findBelow names.condition 2 [node])
  let (index, relation) ← require condition .relationalOperator (Tree.relation? condition.children)
  if index = 0 then throw (.missingPart condition.symbol .leftOperand condition.line)
  if condition.children.length ≤ index + 1 then
    throw (.missingPart condition.symbol .rightOperand condition.line)
  let (leftOrder, left) ← expressionAt names.array (index - 1) condition.children
  let left ← require condition .leftOperand left
  let (rightOrder, right) ← expressionAt names.array (index + 1) condition.children
  let right ← require condition .rightOperand right
  let (leftId, left) ← toTemporary left none
  let (rightId, right) ← toTemporary right none
  return ⟨leftOrder ++ rightOrder ++ [leftId, rightId], left, relation, right⟩

/-- Emits the same statements again. -/
def copies : Order → Assembling Order
  | [] => return []
  | id :: order => do
    match (← get).statements[id]? with
    | some statement =>
      let copy ← emit statement.action
      return copy :: (← copies order)
    | none => copies order

mutual

/-- What a node becomes. -/
def blockOf (names : StatementNames) : Tree → Assembling Block
  | node@⟨symbol, _, _, _, _, children⟩ => do
    if symbol = names.assign then return .line (← assignment names node)
    else if symbol = names.conditional then
      let comparison ← comparison names node
      let branch ← emit (comparison.branch none none)
      let body ← require node .body (← blockOfFirst names names.body children)
      if children.any (·.symbol == names.elseBranch) then
        let skip ← emit (.goto none)
        let other ← blockOfFirst names names.elseBranch children
        let other := other.getD .empty
        let exit ← emit .skip
        setAction skip (.goto (some exit))
        setAction branch (comparison.branch body.order.head? other.order.head?)
        return .choice comparison branch body skip other exit
      else
        setAction branch (comparison.branch body.order.head? body.order.getLast?)
        return .conditional comparison branch body
    else if symbol = names.whileLoop then
      let comparison ← comparison names node
      let branch ← emit (comparison.branch none none)
      let body ← require node .body (← blockOfFirst names names.body children)
      let closing ← require node .body body.order.getLast?
      let evaluation ← copies comparison.order
      let back ← emit (.goto (some branch))
      let first := (Block.round body.order evaluation back).head?
      setAction branch (comparison.branch first (some closing))
      return .whileLoop comparison branch body evaluation back
    else if symbol = names.repeatLoop then
      let start ← emit .skip
      let body ← require node .body (← blockOfFirst names names.body children)
      let comparison ← comparison names node
      let branch ← emit (comparison.branch none none)
      let exit ← emit .skip
      setAction branch (comparison.branch (some exit) (some start))
      return .repeatLoop start body comparison branch exit
    else if symbol = names.print then return .line (← output names node)
    else if symbol = names.call then return .line (← call names node)
    else
      let id ← emit .skip
      return .append (.line [id]) (← blockOfAll names children)

def blockOfAll (names : StatementNames) : List Tree → Assembling Block
  | [] => return .empty
  | tree :: trees => do
    let block ← blockOf names tree
    return .append block (← blockOfAll names trees)

/-- What the first node with a symbol becomes, if there is one. -/
def blockOfFirst (names : StatementNames) (symbol : String) :
    List Tree → Assembling (Option Block)
  | [] => return none
  | tree :: trees => do
    if tree.symbol = symbol then return some (← blockOf names tree)
    else blockOfFirst names symbol trees

end

end Assembly

namespace Program

/-- The program of a tree, and the store with the variables that it uses. -/
def ofTree (names : StatementNames) (tree : Tree) (store : Store) :
    Except CompileError Program × Store :=
  let (result, assembly) := (Assembly.blockOf names tree).run.run { store }
  (result.map fun block => link assembly.statements block.order, assembly.store)

end Program

end LineGrammar

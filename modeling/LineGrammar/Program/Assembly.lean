import LineGrammar.Program
import LineGrammar.Tree

/-!
# Assembling programs

Statements are emitted one after the other into an array; the order in which they are to run is kept
beside it, as the list of their numbers. Variables that are met for the first time and temporary
ones are made in the store on the way, and stay there also when the tree turns out not to be a
program.
-/

namespace LineGrammar

/-- The parts of a statement that can be missing in a tree. -/
inductive StatementPart where
  | assignmentOperator
  | target
  | value
  | body
  | operand
  | functionName
  | condition
  | relationalOperator
  | leftOperand
  | rightOperand
  | arrayName
  | index
  deriving DecidableEq, Repr

def StatementPart.text : StatementPart → String
  | assignmentOperator => "assignment operator"
  | target => "target"
  | value => "value"
  | body => "body"
  | operand => "operand"
  | functionName => "function name"
  | condition => "condition"
  | relationalOperator => "relational operator"
  | leftOperand => "left operand"
  | rightOperand => "right operand"
  | arrayName => "array name"
  | index => "index"

inductive CompileError where
  | missingPart (symbol : String) (part : StatementPart) (line : Nat)
  | malformedExpression (line operands operators : Nat)
  | constantTarget (line : Nat)
  deriving DecidableEq, Repr

def CompileError.message : CompileError → String
  | missingPart symbol part line =>
    "'" ++ symbol ++ "' at line " ++ toString line ++ " has no " ++ part.text
  | malformedExpression line operands operators =>
    "Malformed expression at line " ++ toString line ++ ": " ++ toString operands ++
      " operands for " ++ toString operators ++ " operators"
  | constantTarget line => "Cannot assign to a constant at line " ++ toString line

/-- What has been assembled so far. -/
structure Assembly where
  store : Store
  statements : Array Statement := #[]

/-- Assembling may fail; what was made in the store stays. -/
abbrev Assembling := ExceptT CompileError (StateM Assembly)

/-- The numbers of the emitted statements in the order in which they are to run. -/
abbrev Order := List StatementId

namespace Assembly

def emit (action : Action) : Assembling StatementId := do
  let assembly ← get
  set { assembly with statements := assembly.statements.push { action } }
  return assembly.statements.size

def setAction (id : StatementId) (action : Action) : Assembling Unit :=
  modify fun assembly =>
    { assembly with
      statements := assembly.statements.modify id fun statement => { statement with action } }

/-- The variable of a name. -/
def variableNamed (name : String) : Assembling VariableId := do
  let assembly ← get
  let (store, id) := assembly.store.ensureVariable name
  set { assembly with store }
  return id

def temporary : Assembling VariableId := do
  let assembly ← get
  let (store, id) := assembly.store.addTemporary
  set { assembly with store }
  return id

/-- Emits the assignment of an operand, or of what an operator makes of two, to a new temporary
variable. -/
def toTemporary (left : Access) (second : Option (ArithmeticOp × Access)) :
    Assembling (StatementId × Access) := do
  let access := Access.ofVariable (← temporary)
  let id ← emit (.assign (some access) (some left) (second.map (·.2)) (second.map (·.1)))
  return (id, access)

/-- The value of a part that has to be there. -/
def require {α : Type} (node : Tree) (part : StatementPart) (value : Option α) : Assembling α :=
  match value with
  | some value => return value
  | none => throw (.missingPart node.symbol part node.line)

end Assembly

end LineGrammar

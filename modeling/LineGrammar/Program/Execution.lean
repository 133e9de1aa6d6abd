import LineGrammar.Program.Arithmetic

/-!
# Running programs

A run goes from statement to statement, starting at the entry, until one has no successor. It works
on a store and prints lines, and it may take no more than a limited number of statements. A
statement that fails leaves the store as it was.
-/

namespace LineGrammar

namespace Program

def readSlot (store : Store) (statement : StatementId) (id : VariableId) (index : Nat) :
    Except ExecutionError Value :=
  match store.get? id with
  | none => .error (.corrupt statement .unknownVariable)
  | some var =>
    match var.values[index]? with
    | none => .error (.indexOutOfRange var.name index)
    | some value => .ok value

/-- The value of an operand by itself; of an array the first element. -/
def readOperand (store : Store) (statement : StatementId) : Operand → Except ExecutionError Value
  | .constant value => .ok value
  | .variable id => readSlot store statement id 0

/-- The number of the slot that an access means. -/
def indexOf (store : Store) (statement : StatementId) : Option Operand → Except ExecutionError Nat
  | none => .ok 0
  | some operand => do
    let value ← readOperand store statement operand
    match value.toIndex? with
    | some index => .ok index
    | none => .error (.invalidIndex value)

def read (store : Store) (statement : StatementId) (access : Access) :
    Except ExecutionError Value := do
  let index ← indexOf store statement access.index
  match access.base with
  | .variable id => readSlot store statement id index
  | .constant value =>
    if access.index.isSome then .error (.corrupt statement .indexedConstant) else .ok value

def write (store : Store) (statement : StatementId) (access : Access) (value : Value) :
    Except ExecutionError Store := do
  let index ← indexOf store statement access.index
  match access.base with
  | .constant _ =>
    .error (.corrupt statement
      (if access.index.isSome then .indexedConstant else .assignmentToConstant))
  | .variable id =>
    match store.setValue? id value index with
    | some store => .ok store
    | none =>
      .error (.assignmentRejected (((store.get? id).map Variable.name).getD "") value)

def isText (store : Store) (access : Access) : Bool :=
  match access.variableId?.bind store.get? with
  | some var => store.lowestType var.type == stringType
  | none => false

/-- A part that a statement cannot do without. -/
def demand {α : Type} (statement : StatementId) (defect : Defect) (part : Option α) :
    Except ExecutionError α :=
  match part with
  | some part => .ok part
  | none => .error (.corrupt statement defect)

def assigned (store : Store) (statement : StatementId) (left : Access) (right : Option Access)
    (operator : Option ArithmeticOp) : Except ExecutionError Value := do
  match operator with
  | none => read store statement left
  | some operator =>
    let right ← demand statement .assignmentWithoutSecondOperand right
    let leftValue ← read store statement left
    let rightValue ← read store statement right
    operator.apply (isText store left || isText store right) leftValue rightValue

def comparisonHolds (store : Store) (statement : StatementId) (left right : Access)
    (relation : Relation) : Except ExecutionError Bool := do
  let leftValue ← read store statement left
  let rightValue ← read store statement right
  match leftValue.compare? rightValue with
  | some ordering => .ok (relation.holds ordering)
  | none => .error (.incomparable leftValue rightValue)

structure Effect where
  store : Store
  /-- The lines that it prints. -/
  output : List String := []
  next : Option StatementId

def step (program : Program) (store : Store) (id : StatementId) : Except ExecutionError Effect := do
  let statement ← demand id .danglingStatement program.statements[id]?
  match statement.action with
  | .skip => return { store, next := statement.next }
  | .print access =>
    let value ← read store id (← demand id .printWithoutOperand access)
    return { store, output := [value.display], next := statement.next }
  | .assign target left right operator =>
    let target ← demand id .assignmentWithoutTarget target
    let left ← demand id .assignmentWithoutOperand left
    let value ← assigned store id left right operator
    let store ← write store id target value
    return { store, next := statement.next }
  | .branch left right relation onTrue onFalse =>
    let left ← demand id .branchWithoutComparison left
    let right ← demand id .branchWithoutComparison right
    let relation ← demand id .branchWithoutComparison relation
    let onTrue ← demand id .branchWithoutTarget onTrue
    let onFalse ← demand id .branchWithoutTarget onFalse
    let holds ← comparisonHolds store id left right relation
    return { store, next := some (if holds then onTrue else onFalse) }
  | .goto target =>
    let target ← demand id .gotoWithoutTarget target
    return { store, next := some target }
  | .call function argument =>
    match Builtin.ofName? function with
    | none => throw (.undefinedFunction function)
    | some .debug => return { store, output := store.describe, next := statement.next }
    | some .print =>
      match argument with
      | none => return { store, output := [""], next := statement.next }
      | some access =>
        let value ← read store id access
        return { store, output := [value.display], next := statement.next }

/-- Runs at most `steps` more statements of a run that is limited to `limit`. -/
def runFrom (program : Program) (limit : Nat) :
    Nat → Option StatementId → Store → Array String → Store × Except ExecutionError (Array String)
  | _, none, store, output => (store, .ok output)
  | 0, some _, store, _ => (store, .error (.stepLimitExceeded limit))
  | steps + 1, some id, store, output =>
    match program.step store id with
    | .error error => (store, .error error)
    | .ok effect => runFrom program limit steps effect.next effect.store (output ++ effect.output)

/-- Runs a program on a store: the store that it leaves, and the lines that it prints or the error.
-/
def execute (program : Program) (store : Store) (limit : Nat) :
    Store × Except ExecutionError (List String) :=
  let (store, result) := program.runFrom limit limit program.entry store #[]
  (store, result.map Array.toList)

end Program

end LineGrammar

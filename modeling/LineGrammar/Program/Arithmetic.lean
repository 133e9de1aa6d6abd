import LineGrammar.Program

/-!
# Arithmetic and comparison

Whole numbers are computed exactly and must fit into 64 bits; a quotient that is not whole is a real
number. With a real operand all is real, and with a text one operands can only be joined. Comparison
reads text as numbers.
-/

namespace LineGrammar

/-- What is wrong with a statement that cannot be run at all. -/
inductive Defect where
  | danglingStatement
  | printWithoutOperand
  | assignmentWithoutTarget
  | assignmentWithoutOperand
  | assignmentWithoutSecondOperand
  | branchWithoutComparison
  | branchWithoutTarget
  | gotoWithoutTarget
  | unknownVariable
  | indexedConstant
  | assignmentToConstant
  deriving DecidableEq, Repr

def Defect.text : Defect → String
  | danglingStatement => "dangling statement id"
  | printWithoutOperand => "print without operand"
  | assignmentWithoutTarget => "assignment without target"
  | assignmentWithoutOperand => "assignment without operand"
  | assignmentWithoutSecondOperand => "binary assignment without second operand"
  | branchWithoutComparison => "branch without comparison"
  | branchWithoutTarget => "branch without target"
  | gotoWithoutTarget => "goto without target"
  | unknownVariable => "unknown variable"
  | indexedConstant => "indexed constant"
  | assignmentToConstant => "assignment to a constant"

inductive ExecutionError where
  | corrupt (statement : StatementId) (defect : Defect)
  | undefinedFunction (name : String)
  /-- Texts can only be added. -/
  | textOperation (operator : ArithmeticOp)
  | divisionByZero
  | overflow (operator : ArithmeticOp)
  /-- The least whole number was to be divided by minus one. Its remainder is taken first, and that
  breaks off all work without a report. -/
  | breakdown
  | incomparable (left right : Value)
  | invalidIndex (index : Value)
  | indexOutOfRange (name : String) (index : Nat)
  | assignmentRejected (name : String) (value : Value)
  | stepLimitExceeded (limit : Nat)
  deriving DecidableEq

namespace ExecutionError

def message : ExecutionError → String
  | corrupt statement defect =>
    "Corrupt statement " ++ toString statement ++ ": " ++ defect.text
  | undefinedFunction name => "Undefined function '" ++ name ++ "'"
  | textOperation operator =>
    "Operation '" ++ operator.symbol ++ "' is not supported for type " ++ stringType
  | divisionByZero => "Division by zero"
  | overflow operator => "Integer overflow in '" ++ operator.symbol ++ "'"
  | breakdown => "The remainder of the least integer and minus one"
  | incomparable left right =>
    "Cannot compare " ++ left.display ++ " with " ++ right.display
  | invalidIndex index => "Invalid index " ++ index.display
  | indexOutOfRange name index =>
    "Index out of range: '" ++ name ++ "' has no element " ++ toString index
  | assignmentRejected name value => "Cannot store '" ++ value.display ++ "' into '" ++ name ++ "'"
  | stepLimitExceeded limit => "Step limit of " ++ toString limit ++ " statements exceeded"

/-- Is the program itself at fault, so that it cannot be run on? -/
def isFatal : ExecutionError → Bool
  | corrupt _ _ => true
  | _ => false

end ExecutionError

namespace ArithmeticOp

/-- A whole number that has to fit into 64 bits. -/
def wholeResult (operator : ArithmeticOp) (result : Int) : Except ExecutionError Value :=
  match Number.int64? result with
  | some value => .ok (.int value)
  | none => .error (.overflow operator)

/-- The quotient of whole numbers, a real number unless it is whole. -/
def divideWhole (left right : Int64) : Except ExecutionError Value :=
  if right.toInt = 0 then .error .divisionByZero
  else if left = Int64.minValue ∧ right.toInt = -1 then .error .breakdown
  else if left.toInt.tmod right.toInt = 0 then div.wholeResult (left.toInt.tdiv right.toInt)
  else .ok (.real (Number.ofInt left.toInt / Number.ofInt right.toInt))

def applyWhole (operator : ArithmeticOp) (left right : Int64) : Except ExecutionError Value :=
  match operator with
  | add => add.wholeResult (left.toInt + right.toInt)
  | sub => sub.wholeResult (left.toInt - right.toInt)
  | mul => mul.wholeResult (left.toInt * right.toInt)
  | div => divideWhole left right

def applyReal (operator : ArithmeticOp) (left right : Float) : Except ExecutionError Value :=
  match operator with
  | add => .ok (.real (left + right))
  | sub => .ok (.real (left - right))
  | mul => .ok (.real (left * right))
  | div => if right == Number.ofInt 0 then .error .divisionByZero else .ok (.real (left / right))

def applyText (operator : ArithmeticOp) (left right : Value) : Except ExecutionError Value :=
  match operator with
  | add => .ok (.text (left.display ++ right.display))
  | _ => .error (.textOperation operator)

/-- Applies an operator. `textual` says that the operands count as texts whatever they are. -/
def apply (operator : ArithmeticOp) (textual : Bool) (left right : Value) :
    Except ExecutionError Value :=
  if textual then operator.applyText left right
  else
    match left, right with
    | .int left, .int right => operator.applyWhole left right
    | _, _ =>
      match left.toReal?, right.toReal? with
      | some left, some right => operator.applyReal left right
      | _, _ => operator.applyText left right

end ArithmeticOp

namespace Value

/-- How two real numbers compare, if they do. -/
def compareReals? (left right : Float) : Option Ordering :=
  if left < right then some .lt
  else if right < left then some .gt
  else if left == right then some .eq
  else none

/-- How two values compare as numbers. Only an undefined number compares with none. -/
def compare? (left right : Value) : Option Ordering :=
  match left.toNumber, right.toNumber with
  | .int left, .int right => some (compare left.toInt right.toInt)
  | left, right =>
    match left.toReal?, right.toReal? with
    | some left, some right => compareReals? left right
    | _, _ => none

end Value

end LineGrammar

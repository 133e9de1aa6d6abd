import LineGrammar.Store

/-!
# Programs

A program is an array of statements that name each other by number, so that a loop is a statement
that leads back to an earlier one. Parts of a statement may be missing; running such a statement is
an error.
-/

namespace LineGrammar

abbrev StatementId := Nat

inductive Operand where
  | variable (id : VariableId)
  | constant (value : Value)
  deriving DecidableEq

/-- What a statement reads or writes: a variable or a constant, perhaps at an index. -/
structure Access where
  base : Operand
  index : Option Operand := none
  deriving DecidableEq

def Access.ofVariable (id : VariableId) : Access :=
  { base := .variable id }

def Access.ofConstant (value : Value) : Access :=
  { base := .constant value }

def Access.variableId? (access : Access) : Option VariableId :=
  match access.base with
  | .variable id => some id
  | .constant _ => none

inductive ArithmeticOp where
  | add
  | sub
  | mul
  | div
  deriving DecidableEq, Repr

namespace ArithmeticOp

def symbol : ArithmeticOp → String
  | add => "+"
  | sub => "-"
  | mul => "*"
  | div => "/"

def ofSymbol? : String → Option ArithmeticOp
  | "+" => some add
  | "-" => some sub
  | "*" => some mul
  | "/" => some div
  | _ => none

end ArithmeticOp

inductive Relation where
  | greater
  | greaterEqual
  | less
  | lessEqual
  | equal
  | notEqual
  deriving DecidableEq, Repr

namespace Relation

def symbol : Relation → String
  | greater => ">"
  | greaterEqual => ">="
  | less => "<"
  | lessEqual => "<="
  | equal => "="
  | notEqual => "<>"

/-- Two symbols mean that the sides differ. -/
def ofSymbol? : String → Option Relation
  | ">" => some greater
  | ">=" => some greaterEqual
  | "<" => some less
  | "<=" => some lessEqual
  | "=" => some equal
  | "<>" => some notEqual
  | "!=" => some notEqual
  | _ => none

def holds : Relation → Ordering → Bool
  | greater, ordering => ordering == .gt
  | greaterEqual, ordering => ordering != .lt
  | less, ordering => ordering == .lt
  | lessEqual, ordering => ordering != .gt
  | equal, ordering => ordering == .eq
  | notEqual, ordering => ordering != .eq

end Relation

inductive Builtin where
  /-- Prints its argument. -/
  | print
  /-- Prints all variables. -/
  | debug
  deriving DecidableEq, Repr

namespace Builtin

def name : Builtin → String
  | print => "print"
  | debug => "debug"

def ofName? : String → Option Builtin
  | "print" => some print
  | "debug" => some debug
  | _ => none

end Builtin

inductive Action where
  | skip
  | print (access : Option Access)
  /-- Stores the left operand, or what the operator makes of both. -/
  | assign (target left right : Option Access) (operator : Option ArithmeticOp)
  | branch (left right : Option Access) (relation : Option Relation)
      (onTrue onFalse : Option StatementId)
  | goto (target : Option StatementId)
  | call (function : String) (argument : Option Access)
  deriving DecidableEq

structure Statement where
  action : Action
  /-- The statement to go on with, if the action does not choose one. -/
  next : Option StatementId := none
  deriving DecidableEq

structure Program where
  statements : Array Statement := #[]
  entry : Option StatementId := none
  deriving DecidableEq

namespace Program

def setNext (statements : Array Statement) (id : StatementId) (next : Option StatementId) :
    Array Statement :=
  statements.modify id fun statement => { statement with next }

/-- Lets each statement of the order be followed by the one after it, and the last by none. -/
def chain (statements : Array Statement) : List StatementId → Array Statement
  | [] => statements
  | [last] => setNext statements last none
  | id :: next :: rest => chain (setNext statements id (some next)) (next :: rest)

/-- A program that runs its statements in this order, apart from jumps. -/
def link (statements : Array Statement) (order : List StatementId) : Program :=
  ⟨chain statements order, order.head?⟩

end Program

end LineGrammar

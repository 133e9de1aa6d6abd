import LineGrammar.Program

/-!
# Listings of programs

Every statement has a line of its own with its number, what it does, and the statement to go on
with. A question mark stands for a part that is missing.
-/

namespace LineGrammar

namespace Operand

/-- An operand, with the names that variables have in a store. -/
def display (store : Store) : Operand → String
  | .variable id =>
    match store.get? id with
    | some var => var.name
    | none => "var" ++ toString id
  | .constant (.text value) => "\"" ++ value ++ "\""
  | .constant value => value.display

end Operand

namespace Access

def display (store : Store) (access : Access) : String :=
  match access.index with
  | some index => access.base.display store ++ "[" ++ index.display store ++ "]"
  | none => access.base.display store

/-- An access that may be missing. -/
def displayOption (store : Store) (access : Option Access) : String :=
  (access.map (display store)).getD "?"

end Access

/-- The number of a statement that may be missing. -/
def displayTarget (target : Option StatementId) : String :=
  (target.map toString).getD "?"

namespace Action

def display (store : Store) : Action → String
  | skip => "noop"
  | print access => "print " ++ Access.displayOption store access
  | assign target left right operator =>
    Access.displayOption store target ++ " = " ++ Access.displayOption store left ++
      match operator with
      | some operator => " " ++ operator.symbol ++ " " ++ Access.displayOption store right
      | none => ""
  | branch left right relation onTrue onFalse =>
    "if " ++ Access.displayOption store left ++ " " ++ (relation.map Relation.symbol).getD "?" ++
      " " ++ Access.displayOption store right ++ " then " ++ displayTarget onTrue ++ " else " ++
      displayTarget onFalse
  | goto target => "goto " ++ displayTarget target
  | call function argument =>
    "call " ++ function ++ "(" ++ Access.displayOption store argument ++ ")"

end Action

namespace Program

/-- A number filled up with blanks to four characters. -/
def padded (number : Nat) : String :=
  let digits := Nat.toDigits 10 number
  String.ofList (List.replicate (4 - digits.length) ' ' ++ digits)

def lineText (store : Store) (id : StatementId) (statement : Statement) : String :=
  let next :=
    match statement.next with
    | some next => " -> " ++ toString next
    | none => ""
  padded id ++ ": " ++ statement.action.display store ++ next ++ "\n"

/-- The listing of a program, with the names that variables have in a store. -/
def listing (program : Program) (store : Store) : String :=
  String.join
    (program.statements.toList.zipIdx.map fun (statement, id) => lineText store id statement)

end Program

end LineGrammar

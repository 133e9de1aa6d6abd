import LineGrammar.Proofs.Source.Language
import LineGrammar.Tree

/-!
# Reading commands from trees

A tree of the grammar of statements is read as the command that it writes. Each form of a node is
told by the symbol and the number of its children; other trees do not matter here.
-/

namespace LineGrammar.Tree

open Source

def spelled (tree : Tree) : String :=
  (tree.firstToken?.map Token.text).getD ""

def constant (tree : Tree) : Value :=
  match tree.token.map Token.lexeme with
  | some (.integer value) => .int value
  | some (.real value) => .real value
  | some (.quoted text) => .text text
  | _ => .int 0

def operator (tree : Tree) : ArithmeticOp :=
  (ArithmeticOp.ofSymbol? tree.spelled).getD .add

def relation (tree : Tree) : Relation :=
  (Relation.ofSymbol? tree.spelled).getD .equal

def expression : Tree → Expression
  | ⟨symbol, token, completion, closed, line, children⟩ =>
    match children with
    | [] =>
      let leaf : Tree := ⟨symbol, token, completion, closed, line, []⟩
      if symbol = "ID" then .variable leaf.spelled else .constant leaf.constant
    | [only] => expression only
    | [first, second, third] =>
      if symbol = "primary" then expression second
      else .operation second.operator (expression first) (expression third)
    | [array, _, index, _] => .element array.spelled (expression index)
    | [first, second, third, fourth, fifth] =>
      .operation fourth.operator
        (.operation second.operator (expression first) (expression third)) (expression fifth)
    | _ => .constant (.int 0)

def condition (tree : Tree) : Condition :=
  match tree.children with
  | [_, left, relation, right, _] => ⟨left.expression, relation.relation, right.expression⟩
  | _ => ⟨.constant (.int 0), .equal, .constant (.int 0)⟩

def assignmentTo (target value : Expression) : Command :=
  match target with
  | .variable name => .assign name none value
  | .element name index => .assign name (some index) value
  | _ => .skip

/-- Declarations are made before a program runs, and do nothing when it does. -/
def command : Tree → Command
  | ⟨symbol, _, _, _, _, children⟩ =>
    match children with
    | [only] => command only
    | [first, second] =>
      if symbol = "stmt_list" then .sequence (command first) (command second)
      else if symbol = "else_stmt" then command second
      else .skip
    | [_, second, third] =>
      if symbol = "body" then command second
      else if symbol = "print_stmt" then .print second.expression
      else if symbol = "if_stmt" then .conditional second.condition (command third)
      else .whileLoop second.condition (command third)
    | [first, second, third, fourth] =>
      if symbol = "assign_stmt" then assignmentTo first.expression third.expression
      else if symbol = "if_stmt" then
        .choice second.condition (command third) (command fourth)
      else .call first.spelled none
    | [first, second, third, fourth, _] =>
      if symbol = "repeat_stmt" then .repeatLoop (command second) fourth.condition
      else if symbol = "function_stmt" then .call first.spelled (some third.expression)
      else .skip
    | _ => .skip

end LineGrammar.Tree

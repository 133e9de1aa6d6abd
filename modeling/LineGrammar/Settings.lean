import LineGrammar.Grammar.Draft
import LineGrammar.Value

/-!
# Settings

What a session can be told: the markers of grammar texts, the tokens that end a statement, whether
blocks are scopes, the grammar symbols of the statements, other names of types, and how many
statements a run may take. Each has a default.
-/

namespace LineGrammar

/-- Do braces open and close scopes of declarations? -/
inductive Scoping where
  | off
  | static
  deriving DecidableEq, Repr

/-- The grammar symbols that stand for statements and their parts. -/
structure StatementNames where
  assign : String := "assign_stmt"
  conditional : String := "if_stmt"
  whileLoop : String := "while_stmt"
  repeatLoop : String := "repeat_stmt"
  print : String := "print_stmt"
  call : String := "function_stmt"
  condition : String := "condition"
  body : String := "body"
  array : String := "array"
  elseBranch : String := "else_stmt"
  typeDeclaration : String := "type_decl"
  variableDeclaration : String := "var_decl"
  deriving DecidableEq, Repr

def StatementNames.isLoop (names : StatementNames) (symbol : String) : Bool :=
  symbol == names.whileLoop || symbol == names.repeatLoop

structure Settings where
  markers : Markers := {}
  /-- The words and marks that end a statement. -/
  terminators : List String := [";", "\x7d"]
  scoping : Scoping := .off
  statements : StatementNames := {}
  /-- Names of types in declarations and the types that they mean, in the order of the names. -/
  typeAliases : List (String × String) :=
    [("bool", boolType), ("boolean", boolType), ("float", realType), ("int", intType),
      ("integer", intType), ("real", realType), ("string", stringType)]
  /-- How many statements a run may take. -/
  stepLimit : Nat := 1000000
  deriving DecidableEq, Repr

namespace Settings

def isTerminator (settings : Settings) (text : String) : Bool :=
  settings.terminators.contains text

/-- The type that a name of a declaration means. -/
def resolveType (settings : Settings) (name : String) : String :=
  (settings.typeAliases.lookup name).getD name

end Settings

end LineGrammar

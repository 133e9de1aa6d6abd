import LineGrammar.Settings
import LineGrammar.Store
import LineGrammar.Tree

/-!
# Declarations

A declaration in a tree names new types or variables, then after a colon the type they are of, and
perhaps the size of an array. Declaring goes through a tree from the root down and from left to
right, and does not look for declarations inside of declarations. With static scoping, braces on the
way open and close scopes.
-/

namespace LineGrammar

/-- The parts of a declaration that can be missing. -/
inductive DeclarationPart where
  | baseType
  | type
  deriving DecidableEq, Repr

def DeclarationPart.text : DeclarationPart → String
  | baseType => "base type"
  | type => "type"

inductive DeclarationError where
  | unknownType (type : String) (line : Nat)
  | duplicateVariable (name : String) (line : Nat)
  | typeRejected (name base : String) (line : Nat)
  | invalidSize (name : String) (line : Nat)
  | missingPart (part : DeclarationPart) (line : Nat)
  /-- A stored value is none of its declared type. -/
  | inconsistentTypes
  /-- A node that was still to be looked at is not in the tree. -/
  | staleTree
  deriving DecidableEq, Repr

def DeclarationError.message : DeclarationError → String
  | unknownType type line => "Unknown type '" ++ type ++ "' at line " ++ toString line
  | duplicateVariable name line =>
    "Variable '" ++ name ++ "' is already declared (line " ++ toString line ++ ")"
  | typeRejected name base line =>
    "Type '" ++ name ++ "' cannot be defined as '" ++ base ++ "' (line " ++ toString line ++ ")"
  | invalidSize name line =>
    "Array '" ++ name ++ "' needs a positive integer size (line " ++ toString line ++ ")"
  | missingPart part line =>
    "Declaration at line " ++ toString line ++ " has no " ++ part.text
  | inconsistentTypes => "Stored values do not match their declared types"
  | staleTree => "The parse tree changed while declarations were being walked"

/-- Declaring changes a store, also when it fails half way. -/
abbrev Declaring := ExceptT DeclarationError (StateM Store)

/-- What a declaration says. -/
structure Declaration where
  /-- The names that are declared, the last first. -/
  names : List String := []
  type : Option String := none
  size : Option Int64 := none
  afterColon : Bool := false
  deriving DecidableEq, Repr

namespace Declaration

/-- Reads a leaf of a declaration. Identifiers before the colon are names; the first one after it is
the type, and the last whole number after it the size. -/
def addLeaf (declaration : Declaration) (leaf : Tree) : Declaration :=
  match leaf.token.map Token.lexeme with
  | some (.mark ":") => { declaration with afterColon := true }
  | some (.word word) =>
    if leaf.symbol ≠ "ID" then declaration
    else if !declaration.afterColon then { declaration with names := word :: declaration.names }
    else { declaration with type := declaration.type <|> some word }
  | some (.integer size) =>
    if declaration.afterColon then { declaration with size := some size } else declaration
  | _ => declaration

def ofTree (tree : Tree) : Declaration :=
  tree.leaves.foldl addLeaf {}

/-- The type of a declaration, which has to exist. -/
def resolvedType (declaration : Declaration) (settings : Settings) (part : DeclarationPart)
    (line : Nat) : Declaring String := do
  match declaration.type with
  | none => throw (.missingPart part line)
  | some name =>
    let type := settings.resolveType name
    if (← get).hasType type then return type else throw (.unknownType type line)

def declareTypes (base : String) (line : Nat) : List String → Declaring Unit
  | [] => return
  | name :: names => do
    match (← get).addTypedef? name base with
    | some store =>
      set store
      declareTypes base line names
    | none => throw (.typeRejected name base line)

/-- The number of slots that a declaration asks for. -/
def slots? (declaration : Declaration) : Option Nat :=
  match declaration.size with
  | none => some 1
  | some size => if 0 < size.toInt then some size.toInt.toNat else none

def declareVariables (type : String) (slots : Option Nat) (line : Nat) :
    List String → Declaring Unit
  | [] => return
  | name :: names => do
    match slots with
    | none => throw (.invalidSize name line)
    | some size =>
      match (← get).addVariable? name (some type) size with
      | some store =>
        set store
        declareVariables type slots line names
      | none => throw (.duplicateVariable name line)

/-- Opens or closes a scope at a brace. -/
def scopeAt (node : Tree) : Declaring Unit :=
  match node.token.map Token.lexeme with
  | some (.mark "\x7b") => modify Store.enterScope
  | some (.mark "\x7d") => modify fun store => store.exitScope?.getD store
  | _ => return

/-- Declares what a single node declares, and tells whether to go on below it. -/
def visit (settings : Settings) (node : Tree) : Declaring Bool := do
  let names := settings.statements
  if node.symbol = names.typeDeclaration then
    let declaration := ofTree node
    let base ← declaration.resolvedType settings .baseType node.line
    declareTypes base node.line declaration.names.reverse
    return false
  else if node.symbol = names.variableDeclaration then
    let declaration := ofTree node
    let type ← declaration.resolvedType settings .type node.line
    declareVariables type declaration.slots? node.line declaration.names.reverse
    return false
  else
    if settings.scoping = .static then scopeAt node
    return true

mutual

def visitAll (settings : Settings) : Tree → Declaring Unit
  | tree@⟨_, _, _, _, _, children⟩ => do
    if ← visit settings tree then visitEach settings children

def visitEach (settings : Settings) : List Tree → Declaring Unit
  | [] => return
  | tree :: trees => do
    visitAll settings tree
    visitEach settings trees

end

end Declaration

end LineGrammar

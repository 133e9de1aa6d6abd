import LineGrammar.Value

/-!
# Stores

A store holds the variables of a program and the types that are declared. Names belong to the scope
that declares them and are forgotten when it is left; the variables themselves stay, so that a
number of a variable once given out always means the same one.

A type is primitive, or declared as another name of a type, or declared by itself, or made for a
variable that was not declared with one.
-/

namespace LineGrammar

/-- The number of a variable, in the order in which variables were made. -/
abbrev VariableId := Nat

structure Variable where
  name : String
  type : String
  values : Array Value
  /-- Was it made for an intermediate result? -/
  temporary : Bool
  deriving DecidableEq

inductive TypeKind where
  | primitive
  /-- Made for a variable without a type; it takes all values. -/
  | untyped
  /-- Declared by itself. -/
  | named
  /-- Declared as another name of a type. -/
  | alias (base : String)
  deriving DecidableEq, Repr

structure Scope where
  vars : List String := []
  types : List String := []
  deriving DecidableEq, Repr

structure Store where
  vars : Array Variable := #[]
  /-- The variables that can be named. -/
  names : List (String × VariableId) := []
  types : List (String × TypeKind) :=
    [boolType, stringType, intType, realType].map fun name => (name, TypeKind.primitive)
  scope : Scope := {}
  /-- The scopes around the current one, the nearest first. -/
  outerScopes : List Scope := []
  /-- How many types were made for variables without one. -/
  untypedCount : Nat := 0
  /-- How many names for temporary variables have been used up. -/
  temporaryCount : Nat := 0
  deriving DecidableEq

namespace Store

/-! ## Types -/

def hasType (store : Store) (type : String) : Bool :=
  (store.types.lookup type).isSome

def isPrimitive (store : Store) (type : String) : Bool :=
  store.types.lookup type == some .primitive

/-- The types with one of them set. -/
def setType (types : List (String × TypeKind)) (name : String) (kind : TypeKind) :
    List (String × TypeKind) :=
  (name, kind) :: types.filter (·.1 ≠ name)

/-- Declares a type in the current scope, whatever the name meant before. -/
def insertType (store : Store) (name : String) (kind : TypeKind) : Store :=
  { store with
    types := setType store.types name kind
    scope := { store.scope with types := name :: store.scope.types } }

/-- Follows at most so many names of types to the types that they are other names of. -/
def lowestWithin (types : List (String × TypeKind)) : Nat → String → String
  | 0, type => type
  | steps + 1, type =>
    match types.lookup type with
    | some (.alias base) => lowestWithin types steps base
    | _ => type

def lowestType (store : Store) (type : String) : String :=
  lowestWithin store.types (store.types.length + 1) type

def addType? (store : Store) (name : String) : Option Store :=
  if store.hasType name then none else some (store.insertType name .named)

/-- Declares a name as another name of a type, unless it is taken, there is no such type, or the
type is finally another name of the new one. -/
def addTypedef? (store : Store) (name base : String) : Option Store :=
  if store.hasType name || !store.hasType base || store.lowestType base == name then none
  else some (store.insertType name (.alias base))

/-! ## Variables -/

def idOf? (store : Store) (name : String) : Option VariableId :=
  store.names.lookup name

def get? (store : Store) (id : VariableId) : Option Variable :=
  store.vars[id]?

def variableNamed? (store : Store) (name : String) : Option Variable :=
  (store.idOf? name).bind store.get?

def value? (store : Store) (id : VariableId) (index : Nat) : Option Value :=
  (store.get? id).bind fun var => var.values[index]?

/-- Makes a variable of a type with so many slots, and one slot at least. -/
def insertVariable (store : Store) (name type : String) (size : Nat) (temporary : Bool) : Store :=
  let value := Value.defaultOf (store.lowestType type)
  { store with
    vars := store.vars.push ⟨name, type, .replicate (max size 1) value, temporary⟩
    names := (name, store.vars.size) :: store.names
    scope := { store.scope with vars := name :: store.scope.vars } }

/-- Makes a variable with a type of its own that takes all values. -/
def insertUntyped (store : Store) (name : String) (size : Nat) (temporary : Bool) : Store :=
  let type := "INTERNAL_" ++ toString store.untypedCount
  let typed := { store with untypedCount := store.untypedCount + 1 }.insertType type .untyped
  typed.insertVariable name type size temporary

/-- Declares a variable, unless the name is taken or there is no such type. -/
def addVariable? (store : Store) (name : String) (type : Option String) (size : Nat) :
    Option Store :=
  if (store.idOf? name).isSome then none
  else
    match type with
    | none => some (store.insertUntyped name size false)
    | some type =>
      if store.hasType type then some (store.insertVariable name type size false) else none

def temporaryName (number : Nat) : String :=
  "temp#" ++ toString number

/-- The next number for a temporary variable whose name is not taken. -/
def nextTemporary (store : Store) : Nat :=
  let numbers := List.range' store.temporaryCount (store.names.length + 1)
  (numbers.find? fun number => (store.idOf? (temporaryName number)).isNone).getD
    (store.temporaryCount + store.names.length)

def addTemporary (store : Store) : Store × VariableId :=
  let number := store.nextTemporary
  let counted := { store with temporaryCount := number + 1 }
  (counted.insertUntyped (temporaryName number) 1 true, store.vars.size)

/-- The variable of a name, made without a type if there is none. -/
def ensureVariable (store : Store) (name : String) : Store × VariableId :=
  match store.idOf? name with
  | some id => (store, id)
  | none => (store.insertUntyped name 1 false, store.vars.size)

/-- The slots with one of them set; slots that are missing before it are filled up. -/
def setSlot (values : Array Value) (filler : Value) (index : Nat) (value : Value) : Array Value :=
  (values ++ Array.replicate (index + 1 - values.size) filler).setIfInBounds index value

/-- Stores a value as one of the type of the variable, unless it cannot be converted or there is no
such variable. An array grows as far as needed. -/
def setValue? (store : Store) (id : VariableId) (value : Value) (index : Nat) : Option Store :=
  match store.get? id with
  | none => none
  | some var =>
    let lowest := store.lowestType var.type
    (value.convert? lowest).map fun converted =>
      let filler := Value.defaultOf lowest
      { store with
        vars := store.vars.modify id fun var =>
          { var with values := setSlot var.values filler index converted } }

/-- Stores a value in the variable of a name, which is made if there is none. -/
def setNamed? (store : Store) (name : String) (value : Value) (index : Nat) : Option Store :=
  let (ensured, id) := store.ensureVariable name
  ensured.setValue? id value index

/-! ## Scopes -/

def scopeDepth (store : Store) : Nat :=
  store.outerScopes.length + 1

def enterScope (store : Store) : Store :=
  { store with scope := {}, outerScopes := store.scope :: store.outerScopes }

/-- Leaves the current scope and forgets its names, unless it is the outermost. -/
def exitScope? (store : Store) : Option Store :=
  match store.outerScopes with
  | [] => none
  | outer :: rest =>
    some { store with
      names := store.names.filter fun (name, _) => name ∉ store.scope.vars
      types := store.types.filter fun (name, _) => name ∉ store.scope.types
      scope := outer
      outerScopes := rest }

/-! ## Views -/

/-- The variables that can be named, in the order in which they were made. -/
def visibleIds (store : Store) : List VariableId :=
  (store.names.map (·.2)).mergeSort

/-- The values converted to a type, each kept if it cannot be, and whether all could be. -/
def convertAll (values : Array Value) (type : String) : Array Value × Bool :=
  (values.map fun value => (value.convert? type).getD value,
    values.all fun value => (value.convert? type).isSome)

/-- Converts the values of a variable to its type, if that is finally a primitive one. -/
def verifyVariable (store : Store) (id : VariableId) : Store × Bool :=
  match store.get? id with
  | none => (store, true)
  | some var =>
    let lowest := store.lowestType var.type
    if store.isPrimitive lowest then
      let (values, consistent) := convertAll var.values lowest
      ({ store with vars := store.vars.modify id fun old => { old with values } },
        consistent)
    else (store, true)

/-- Converts the values of all variables that can be named, and tells whether all could be. -/
def verifyTypes (store : Store) : Store × Bool :=
  store.visibleIds.foldl
    (fun (store, consistent) id =>
      let (verified, kept) := store.verifyVariable id
      (verified, consistent && kept))
    (store, true)

/-- The type that is shown for a variable: that of its first value if it has none of its own. -/
def effectiveType (store : Store) (var : Variable) : String :=
  let lowest := store.lowestType var.type
  match store.types.lookup lowest, var.values[0]? with
  | some .untyped, some value => value.typeName
  | _, _ => lowest

def describeVariable (store : Store) (var : Variable) : String :=
  var.name ++ " : " ++ store.effectiveType var ++ " = " ++
    String.intercalate ", " (var.values.toList.map Value.display)

/-- One line for each variable that can be named. -/
def describe (store : Store) : List String :=
  (store.visibleIds.filterMap store.get?).map store.describeVariable

end Store

end LineGrammar

import LineGrammar.Program.Arithmetic

/-!
# The language of statements

Programs as they are written: expressions, conditions and commands that are nested in each other. A
command is evaluated on a memory, which knows variables by name and nothing of temporary ones. It
ends, with the lines that it prints, or it fails. The rounds of each loop are limited, so that
evaluating comes to an end; a command that ends or fails does so with any higher limit too.
-/

namespace LineGrammar.Source

inductive Expression where
  | constant (value : Value)
  | variable (name : String)
  | element (array : String) (index : Expression)
  | operation (operator : ArithmeticOp) (left right : Expression)

structure Condition where
  left : Expression
  relation : Relation
  right : Expression

inductive Command where
  | skip
  | assign (name : String) (index : Option Expression) (value : Expression)
  | print (value : Expression)
  | call (function : String) (argument : Option Expression)
  | sequence (first second : Command)
  | conditional (test : Condition) (body : Command)
  | choice (test : Condition) (body other : Command)
  | whileLoop (test : Condition) (body : Command)
  | repeatLoop (body : Command) (test : Condition)

/-- The names of the functions that a command calls. -/
def Command.functions : Command → List String
  | call function _ => [function]
  | sequence first second => first.functions ++ second.functions
  | conditional _ body => body.functions
  | choice _ body other => body.functions ++ other.functions
  | whileLoop _ body => body.functions
  | repeatLoop body _ => body.functions
  | _ => []

/-! ## Memory -/

/-- A variable: its values, and the primitive type that they are converted to, if there is one. -/
structure Cell where
  type : Option String
  values : Array Value
  deriving DecidableEq

namespace Cell

def blank : Cell := ⟨none, #[.int 0]⟩

def convert? (cell : Cell) (value : Value) : Option Value :=
  match cell.type with
  | none => some value
  | some type => value.convert? type

/-- What slots hold that have not been assigned. -/
def filler (cell : Cell) : Value :=
  match cell.type with
  | none => .int 0
  | some type => .defaultOf type

/-- The variable with a value in one of its slots. -/
def write? (cell : Cell) (slot : Nat) (value : Value) : Option Cell :=
  (cell.convert? value).map fun converted =>
    { cell with values := Store.setSlot cell.values cell.filler slot converted }

end Cell

abbrev Memory := String → Cell

def Memory.set (memory : Memory) (name : String) (cell : Cell) : Memory :=
  fun other => if other = name then cell else memory other

/-! ## Expressions -/

namespace Expression

/-- Does the expression name a variable that is declared as a text? -/
def isText (memory : Memory) : Expression → Bool
  | .variable name => (memory name).type == some stringType
  | .element array _ => (memory array).type == some stringType
  | _ => false

def value? (memory : Memory) : Expression → Option Value
  | .constant value => some value
  | .variable name => (memory name).values[0]?
  | .element array index => do
    let slot ← (← index.value? memory).toIndex?
    (memory array).values[slot]?
  | .operation operator left right => do
    let leftValue ← left.value? memory
    let rightValue ← right.value? memory
    (operator.apply (left.isText memory || right.isText memory) leftValue rightValue).toOption

/-- The variable of a name, or an element of it. -/
def ofName (name : String) : Option Expression → Expression
  | none => .variable name
  | some index => .element name index

/-- Applies operators from left to right to a first operand and the others. -/
def applyAll (first : Expression) (rest : List (ArithmeticOp × Expression)) : Expression :=
  rest.foldl (fun left (operator, right) => .operation operator left right) first

end Expression

def slot? (memory : Memory) : Option Expression → Option Nat
  | none => some 0
  | some index => do (← index.value? memory).toIndex?

theorem Expression.ofName_inj {name other : String} {index otherIndex : Option Expression} :
    Expression.ofName name index = Expression.ofName other otherIndex ↔
      name = other ∧ index = otherIndex := by
  cases index <;> cases otherIndex <;> simp [Expression.ofName]

theorem Expression.value?_ofName (memory : Memory) (name : String) (index : Option Expression) :
    (Expression.ofName name index).value? memory =
      (slot? memory index).bind fun slot => (memory name).values[slot]? := by
  cases index with
  | none => rfl
  | some index =>
    show ((index.value? memory).bind fun value => value.toIndex?.bind _) =
      ((index.value? memory).bind Value.toIndex?).bind _
    rw [Option.bind_assoc]

theorem Expression.isText_ofName (memory : Memory) (name : String) (index : Option Expression) :
    (Expression.ofName name index).isText memory = ((memory name).type == some stringType) := by
  cases index <;> rfl

theorem Expression.value?_applyAll_of_none {memory : Memory} {first : Expression}
    (h : first.value? memory = none) (rest : List (ArithmeticOp × Expression)) :
    (first.applyAll rest).value? memory = none := by
  induction rest generalizing first with
  | nil => exact h
  | cons second rest ih =>
    obtain ⟨operator, right⟩ := second
    have hsecond : (Expression.operation operator first right).value? memory = none := by
      show (first.value? memory).bind _ = none
      rw [h]
      rfl
    exact ih hsecond

def Condition.holds? (memory : Memory) (condition : Condition) : Option Bool := do
  let left ← condition.left.value? memory
  let right ← condition.right.value? memory
  (left.compare? right).map condition.relation.holds

theorem Expression.value?_applyAll_of_mem {memory : Memory} {first : Expression}
    {rest : List (ArithmeticOp × Expression)} {operator : ArithmeticOp} {right : Expression}
    (hmem : (operator, right) ∈ rest) (h : right.value? memory = none) :
    (first.applyAll rest).value? memory = none := by
  induction rest generalizing first with
  | nil => exact absurd hmem List.not_mem_nil
  | cons second rest ih =>
    rcases List.mem_cons.mp hmem with rfl | hrest
    · have hsecond : (Expression.operation operator first right).value? memory = none := by
        show ((first.value? memory).bind fun leftValue => (right.value? memory).bind _) = none
        rw [h]
        cases first.value? memory <;> rfl
      exact value?_applyAll_of_none hsecond rest
    · exact ih hrest

/-! ## Commands -/

inductive Outcome where
  | unfinished
  | fails
  | ends (memory : Memory) (output : List String)

namespace Outcome

def ofOption : Option (Memory × List String) → Outcome
  | none => fails
  | some (memory, output) => ends memory output

/-- The outcome with lines that were printed before. -/
def after (output : List String) : Outcome → Outcome
  | ends memory more => ends memory (output ++ more)
  | outcome => outcome

def andThen (outcome : Outcome) (next : Memory → Outcome) : Outcome :=
  match outcome with
  | ends memory output => (next memory).after output
  | outcome => outcome

theorem after_nil (outcome : Outcome) : outcome.after [] = outcome := by
  cases outcome <;> rfl

end Outcome

/-- The rounds of a loop that tests before each of them. -/
@[grind =]
def whileRounds (holds? : Memory → Option Bool) (body : Memory → Outcome) : Nat → Memory → Outcome
  | 0, _ => .unfinished
  | rounds + 1, memory =>
    match holds? memory with
    | none => .fails
    | some true => (body memory).andThen (whileRounds holds? body rounds)
    | some false => .ends memory []

/-- The rounds of a loop that tests after each of them. -/
@[grind =]
def repeatRounds (body : Memory → Outcome) (holds? : Memory → Option Bool) :
    Nat → Memory → Outcome
  | 0, _ => .unfinished
  | rounds + 1, memory =>
    (body memory).andThen fun memory =>
      match holds? memory with
      | none => .fails
      | some true => .ends memory []
      | some false => repeatRounds body holds? rounds memory

namespace Command

/-- Evaluates a command with at most so many rounds for each loop. A function that there is none of
cannot be called. -/
@[grind =]
def evaluate (rounds : Nat) : Command → Memory → Outcome
  | skip, memory => .ends memory []
  | assign name index value, memory =>
    .ofOption do
      let value ← value.value? memory
      let slot ← slot? memory index
      let cell ← (memory name).write? slot value
      return (memory.set name cell, [])
  | print value, memory =>
    .ofOption ((value.value? memory).map fun value => (memory, [value.display]))
  | call function argument, memory =>
    match Builtin.ofName? function, argument with
    | some .print, none => .ends memory [""]
    | some .print, some argument =>
      .ofOption ((argument.value? memory).map fun value => (memory, [value.display]))
    | _, _ => .fails
  | sequence first second, memory =>
    (evaluate rounds first memory).andThen (evaluate rounds second)
  | conditional test body, memory =>
    match test.holds? memory with
    | none => .fails
    | some true => evaluate rounds body memory
    | some false => .ends memory []
  | choice test body other, memory =>
    match test.holds? memory with
    | none => .fails
    | some true => evaluate rounds body memory
    | some false => evaluate rounds other memory
  | whileLoop test body, memory =>
    whileRounds (fun memory => test.holds? memory) (evaluate rounds body) rounds memory
  | repeatLoop body test, memory =>
    repeatRounds (evaluate rounds body) (fun memory => test.holds? memory) rounds memory

end Command

end LineGrammar.Source

import LineGrammar.Settings
import LineGrammar.Text.Blank
import LineGrammar.Yaml.View

/-!
# Reading settings

Settings are written as a YAML mapping. What is not given keeps its default, and keys without a
meaning are passed over; a key with one may be given only once. A blank text gives no settings.
-/

namespace LineGrammar

structure SettingsField (α : Type) where
  key : String
  change : Yaml.View → α → Option α

namespace SettingsField

/-- The entries of a value that gives some fields, which have texts as keys; nothing at all gives
none. -/
def entries? (given : Yaml.View) : Option (List (String × Yaml.View)) :=
  match given.entries? with
  | some entries => entries.mapM fun (key, value) => key.text?.map (·, value)
  | none => if given.isMissing then some [] else none

/-- Changes what the entries with this key give, which is one at most. -/
def changeBy? {α : Type} (entries : List (String × Yaml.View)) (field : SettingsField α)
    (value : α) : Option α :=
  match entries.filter fun (key, _) => key == field.key with
  | [] => some value
  | [(_, given)] => field.change given value
  | _ => none

/-- Changes what a value gives. -/
def applyAll? {α : Type} (fields : List (SettingsField α)) (given : Yaml.View) (value : α) :
    Option α := do
  let entries ← entries? given
  fields.foldlM (fun value field => field.changeBy? entries value) value

end SettingsField

namespace Yaml.View

/-- A sequence of texts; nothing at all gives none. -/
def texts? (given : View) : Option (List String) :=
  match given.items? with
  | some items => items.mapM text?
  | none => if given.isMissing then some [] else none

/-- Reads digits of a base of at most ten. -/
def ofDigits? (base : Nat) (digits : List Char) : Option Nat :=
  if digits ≠ [] ∧ digits.all (fun c => c.isDigit && Number.digitValue c < base) then
    some (digits.foldl (fun n c => base * n + Number.digitValue c) 0)
  else none

/-- Reads a number without a sign: in decimal without zeros in front, or behind a mark in another
base. -/
def unsigned? : List Char → Option Nat
  | '0' :: 'x' :: digits => if digits = [] then none else ofHex? digits
  | '0' :: 'o' :: digits => ofDigits? 8 digits
  | '0' :: 'b' :: digits => ofDigits? 2 digits
  | ['0'] => some 0
  | '0' :: _ => none
  | digits => ofDigits? 10 digits

/-- May the scalar be a number? It is plain, or it stands in a block and its tag says so. -/
def isNumeric (properties : Properties) : Style → Bool
  | .plain => true
  | .literal => properties.tag == some "tag:yaml.org,2002:int"
  | _ => false

/-- A scalar as a number of 64 bits without a sign. -/
def natural? (given : View) : Option Nat :=
  match given.target with
  | .scalar properties style text =>
    if isNumeric properties style then
      let digits :=
        match text.toList with
        | '+' :: digits => digits
        | digits => digits
      (unsigned? digits).filter (· < UInt64.size)
    else none
  | _ => none

def isNull (style : Style) (text : String) : Bool :=
  style == .plain && ["", "~", "null", "Null", "NULL"].contains text

/-- The name in a tag, which is what follows its exclamation mark. The tags of the language itself
have none. -/
def tagName? (properties : Properties) : Option String :=
  match properties.tag.map String.toList with
  | some ('!' :: name) => some (String.ofList name)
  | _ => none

/-- A word that is the text of a scalar, or the name in its tag if there is no value besides. -/
def word? (given : View) : Option String :=
  match given.target with
  | .scalar properties style text =>
    match tagName? properties with
    | none => some text
    | some name => if isNull style text then some name else none
  | _ => none

/-- A word that tells whether blocks are scopes. -/
def scoping? (given : View) : Option Scoping :=
  match given.word? with
  | some "off" => some .off
  | some "static" => some .static
  | _ => none

/-- The pairs of a list that is ordered by their first parts, with one more; a pair with the same
first part is replaced. -/
def insertPair (key value : String) : List (String × String) → List (String × String)
  | [] => [(key, value)]
  | (other, old) :: rest =>
    if key < other then (key, value) :: (other, old) :: rest
    else if key = other then (key, value) :: rest
    else (other, old) :: insertPair key value rest

/-- A mapping of texts to texts, ordered by its keys. The last value of a key counts; nothing at all
gives no pairs. -/
def textMapping? (given : View) : Option (List (String × String)) :=
  match given.entries? with
  | some entries =>
    entries.foldlM (fun pairs (key, value) => do
      return insertPair (← key.text?) (← value.text?) pairs) []
  | none => if given.isMissing then some [] else none

end Yaml.View

def Markers.fields : List (SettingsField Markers) :=
  [⟨"end_group", fun given m => given.text?.map fun text => { m with endGroup := text }⟩,
    ⟨"end_grammar", fun given m => given.text?.map fun text => { m with endGrammar := text }⟩,
    ⟨"separator", fun given m => given.text?.map fun text => { m with separator := text }⟩]

def StatementNames.fields : List (SettingsField StatementNames) :=
  [⟨"assign", fun given n => given.text?.map fun text => { n with assign := text }⟩,
    ⟨"conditional", fun given n => given.text?.map fun text => { n with conditional := text }⟩,
    ⟨"while_loop", fun given n => given.text?.map fun text => { n with whileLoop := text }⟩,
    ⟨"repeat_loop", fun given n => given.text?.map fun text => { n with repeatLoop := text }⟩,
    ⟨"print", fun given n => given.text?.map fun text => { n with print := text }⟩,
    ⟨"call", fun given n => given.text?.map fun text => { n with call := text }⟩,
    ⟨"condition", fun given n => given.text?.map fun text => { n with condition := text }⟩,
    ⟨"body", fun given n => given.text?.map fun text => { n with body := text }⟩,
    ⟨"array", fun given n => given.text?.map fun text => { n with array := text }⟩,
    ⟨"else_branch", fun given n => given.text?.map fun text => { n with elseBranch := text }⟩,
    ⟨"type_decl", fun given n => given.text?.map fun text => { n with typeDeclaration := text }⟩,
    ⟨"var_decl", fun given n =>
      given.text?.map fun text => { n with variableDeclaration := text }⟩]

namespace Settings

def fields : List (SettingsField Settings) :=
  [⟨"markers", fun given s =>
      (SettingsField.applyAll? Markers.fields given {}).map fun markers => { s with markers }⟩,
    ⟨"terminators", fun given s => given.texts?.map fun terminators => { s with terminators }⟩,
    ⟨"scoping", fun given s => given.scoping?.map fun scoping => { s with scoping }⟩,
    ⟨"statements", fun given s =>
      (SettingsField.applyAll? StatementNames.fields given {}).map fun statements =>
        { s with statements }⟩,
    ⟨"type_aliases", fun given s =>
      given.textMapping?.map fun typeAliases => { s with typeAliases }⟩,
    ⟨"step_limit", fun given s => given.natural?.map fun stepLimit => { s with stepLimit }⟩]

def read? (text : String) : Option Settings :=
  if (Text.trim text.toList).isEmpty then some {}
  else (Yaml.View.ofText? text).bind fun given => SettingsField.applyAll? fields given {}

end Settings

end LineGrammar

import LineGrammar.Number.Reading
import LineGrammar.Yaml.Property

/-!
# Directives

A line with a percent sign in front tells about the document that follows: the version of its
language, or what a handle of its tags stands for.
-/

namespace LineGrammar.Yaml

inductive Directive where
  | version (major minor : Nat)
  | tag (handle : String) (start : Octets)
  deriving DecidableEq, Repr

namespace Directive

def endsLine (text : List Char) : Bool :=
  let rest := text.dropWhile isBlank
  rest.isEmpty || rest.head? == some '#'

def readNumber? (text : List Char) : Option (Nat × List Char) :=
  let digits := text.takeWhile Char.isDigit
  if digits.length ≤ 9 then
    (Number.readNat? digits).map fun number => (number, text.drop digits.length)
  else none

def readVersion? (text : List Char) : Option Directive :=
  match readNumber? text with
  | some (major, '.' :: text) =>
    match readNumber? text with
    | some (minor, text) => if endsLine text then some (version major minor) else none
    | none => none
  | _ => none

/-- Reads a handle and, behind blanks, what it stands for. -/
def readTag? (text : List Char) : Option Directive := do
  let (handle, length) ← readHandle? text
  let uri := (text.drop length).dropWhile isBlank
  let (start, length) ← readFullUri? true uri
  if (text.drop handle.length).head?.any isBlank ∧ endsWord (uri.drop length) ∧
      endsLine (uri.drop length) then
    return tag handle start
  else none

def ofLine? (line : List Char) : Option Directive :=
  let name := line.takeWhile isNameChar
  let text := line.drop name.length
  if endsWord text then
    match String.ofList name with
    | "YAML" => readVersion? (text.dropWhile isBlank)
    | "TAG" => readTag? (text.dropWhile isBlank)
    | _ => none
  else none

/-! ## What directives tell together -/

/-- Is the version one whose documents can be read? -/
def isKnown : Directive → Bool
  | version major minor => major == 1 && (minor == 1 || minor == 2)
  | tag _ _ => true

/-- Do two directives tell about the same thing? -/
def clashes : Directive → Directive → Bool
  | version _ _, version _ _ => true
  | tag handle _, tag other _ => handle == other
  | _, _ => false

/-- May the directives stand in front of one document? -/
def areValid (directives : List Directive) : Bool :=
  directives.all isKnown && directives.Pairwise fun one other => !one.clashes other

/-- What a handle stands for: what a directive tells, and otherwise two handles mean themselves and
the tags of the language. -/
def expand? (directives : List Directive) (handle : String) : Option Octets :=
  (directives.findSome? fun
    | tag other start => if other = handle then some start else none
    | version _ _ => none) <|>
  match handle with
  | "!" => some [0x21]
  | "!!" => some "tag:yaml.org,2002:".toUTF8.toList
  | _ => none

end Directive

namespace TagName

/-- The octets of a tag, after these directives. -/
def octets? (directives : List Directive) (tag : TagName) : Option Octets :=
  match tag.handle with
  | none => some tag.suffix
  | some handle => (Directive.expand? directives handle).map (· ++ tag.suffix)

end TagName

end LineGrammar.Yaml

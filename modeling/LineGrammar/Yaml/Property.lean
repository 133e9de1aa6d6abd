import LineGrammar.Yaml.Text

/-!
# Properties of nodes

A node may have an anchor, which is a name that aliases refer to, and a tag. A tag is a URI: written
out between angle brackets, or as a handle, which stands for the start of one, and a suffix.

URIs are read as octets, since escapes may write any. The readers give what they have read, and how
many characters that took.
-/

namespace LineGrammar.Yaml

abbrev Octets := List UInt8

/-- A tag as it is written. A handle stands for the octets in front of the suffix; without a handle
the suffix is all. -/
structure TagName where
  handle : Option String
  suffix : Octets
  deriving DecidableEq, Repr

/-- Reads the name of an anchor or an alias, behind which a word or a node has to end. -/
def readName? (text : List Char) : Option (String × Nat) :=
  let name := text.takeWhile isNameChar
  let rest := text.drop name.length
  if name ≠ [] ∧ (endsWord rest ∨
      rest.head?.any fun c => ['?', ':', ',', ']', '\x7d', '%', '@', '\x60'].contains c) then
    some (String.ofList name, name.length)
  else none

/-! ## URIs -/

/-- May the character stand in a URI? Between angle brackets a few more may. -/
def isUriChar (bracketed : Bool) (c : Char) : Bool :=
  isNameChar c ||
    [';', '/', '?', ':', '@', '&', '=', '+', '$', '.', '!', '~', '*', '\'', '(', ')'].contains c ||
    (bracketed && [',', '[', ']'].contains c)

/-- How many octets follow the first one of a character. -/
def octetsAfter? (octet : Nat) : Option Nat :=
  if octet < 0x80 then some 0
  else if octet < 0xC0 then none
  else if octet < 0xE0 then some 1
  else if octet < 0xF0 then some 2
  else if octet < 0xF8 then some 3
  else none

/-- How many octets a character lacks behind an octet, when it lacked `missing` in front of it. -/
def missingAfter? (missing octet : Nat) : Option Nat :=
  if missing = 0 then octetsAfter? octet
  else if 0x80 ≤ octet ∧ octet < 0xC0 then some (missing - 1)
  else none

/-- Reads as much of a URI as there is. Octets outside of ASCII are escaped, and `missing` tells how
many of them the character lacks that has been started. -/
def readUri? (bracketed : Bool) (missing : Nat) : List Char → Option (Octets × Nat)
  | [] => if missing = 0 then some ([], 0) else none
  | '%' :: c :: d :: text => do
    let octet ← ofHex? [c, d]
    let missing ← missingAfter? missing octet
    let (octets, length) ← readUri? bracketed missing text
    return (octet.toUInt8 :: octets, length + 3)
  | c :: text =>
    if missing ≠ 0 ∨ c = '%' then none
    else if isUriChar bracketed c then
      (readUri? bracketed 0 text).map fun (octets, length) =>
        (c.toNat.toUInt8 :: octets, length + 1)
    else some ([], 0)

def readFullUri? (bracketed : Bool) (text : List Char) : Option (Octets × Nat) :=
  (readUri? bracketed 0 text).filter fun (octets, _) => octets ≠ []

/-! ## Tags -/

/-- Reads a handle: an exclamation mark, alone or with a name between it and another one. -/
def readHandle? : List Char → Option (String × Nat)
  | '!' :: text =>
    let name := text.takeWhile isNameChar
    match text.drop name.length with
    | '!' :: _ => some ("!" ++ String.ofList name ++ "!", name.length + 2)
    | _ => if name = [] then some ("!", 1) else none
  | _ => none

/-- Reads a tag behind its exclamation mark. A mark alone is a tag of its own. -/
def readTagName? (text : List Char) : Option (TagName × Nat) :=
  match text, readHandle? ('!' :: text) with
  | '<' :: uri, _ =>
    (readFullUri? true uri).bind fun (octets, length) =>
      if (uri.drop length).head? = some '>' then some (⟨none, octets⟩, length + 2) else none
  | text, some (handle, length + 2) =>
    (readFullUri? false (text.drop (length + 1))).map fun (octets, rest) =>
      (⟨some handle, octets⟩, length + 1 + rest)
  | text, _ =>
    (readUri? false 0 text).map fun (octets, length) =>
      (if octets = [] then ⟨none, [0x21]⟩ else ⟨some "!", octets⟩, length)

/-- Reads a tag behind its exclamation mark. A word has to end behind the tag, but between brackets
there may be a comma. -/
def readTag? (inFlow : Bool) (text : List Char) : Option (TagName × Nat) :=
  (readTagName? text).filter fun (_, length) =>
    endsWord (text.drop length) || (inFlow && (text.drop length).head? == some ',')

end LineGrammar.Yaml

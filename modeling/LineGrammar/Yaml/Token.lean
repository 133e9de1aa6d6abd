import LineGrammar.Yaml.Directive

/-!
# Tokens of YAML texts

The signs that a text is made of. Blocks have no signs of their own: tokens say where the layout
starts and ends one.
-/

namespace LineGrammar.Yaml

inductive Style where
  | plain
  | quoted
  | literal
  | folded
  deriving DecidableEq, Repr

inductive Token where
  | directive (directive : Directive)
  | documentStart
  | documentEnd
  | blockSequence
  | blockMapping
  | blockEnd
  | flowSequence
  | flowSequenceEnd
  | flowMapping
  | flowMappingEnd
  /-- The comma between entries in brackets. -/
  | comma
  /-- The dash before an item of a block. -/
  | dash
  /-- What follows is a key. -/
  | key
  /-- What follows is the value of the key before. -/
  | value
  /-- An alias of the node whose anchor has this number. -/
  | reference (anchor : Nat)
  | anchor (anchor : Nat)
  | tag (name : TagName)
  | scalar (style : Style) (text : String)
  deriving DecidableEq, Repr

end LineGrammar.Yaml

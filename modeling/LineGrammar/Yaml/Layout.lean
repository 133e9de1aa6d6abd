import LineGrammar.Yaml.Scalar.Block
import LineGrammar.Yaml.Scalar.Plain
import LineGrammar.Yaml.Scalar.Quoted
import LineGrammar.Yaml.Token

/-!
# Layout

Outside of brackets the columns tell which block a token belongs to: a block starts where a dash or
a key stands further to the right than the block around, and it ends at a token further to the left.
A `Layout` is what has to be known between two tokens, and `Layout.readAll?` reads all tokens of a
text.

That a node is a key shows only at the colon behind it. Where a key may start the layout keeps the
place, and a colon puts the tokens in front of the node afterwards; this has to happen on the same
line and after at most 1024 characters.
-/

namespace LineGrammar.Yaml

/-- A place where a node starts that may turn out to be a key. -/
structure KeyStart where
  /-- How many tokens stand in front of the node. -/
  index : Nat
  place : Place
  /-- Does the node have to be a key? In a block whose keys start in its column it has to. -/
  isRequired : Bool
  deriving DecidableEq, Repr

namespace KeyStart

/-- Is it too late for a colon at a place? -/
def isPast (start : KeyStart) (place : Place) : Bool :=
  start.place.line < place.line || start.place.column + 1024 < place.column

end KeyStart

/-- What is known between two tokens. -/
structure Layout where
  tokens : Array Token := #[]
  /-- For every open block, innermost first, the column behind the one that it starts in. -/
  margins : List Nat := []
  /-- Where a key may have started inside the innermost bracket. -/
  keyStart : Option KeyStart := none
  /-- The same for the brackets around, innermost first. -/
  outerStarts : List (Option KeyStart) := []
  /-- May a key start at the next token? -/
  allowsKey : Bool := true
  /-- The anchors so far with their numbers, last first. -/
  anchors : List (String × Nat) := []

namespace Layout

/-- Is this between brackets? -/
def inFlow (layout : Layout) : Bool :=
  !layout.outerStarts.isEmpty

/-- The first column where the lines of the innermost block may go on. -/
def margin (layout : Layout) : Nat :=
  layout.margins.head?.getD 0

def push (token : Token) (layout : Layout) : Layout :=
  { layout with tokens := layout.tokens.push token }

def setAllowsKey (allowsKey : Bool) (layout : Layout) : Layout :=
  { layout with allowsKey }

/-! ## Between tokens -/

/-- The length of the spaces, line ends and comments in front of a text in this column, and whether
a key may start behind them. Tabs count as spaces between brackets and where no key may start. A
byte order mark may stand in front of a line. -/
def trivia (inFlow allowsKey inComment : Bool) (column : Nat) : List Char → Nat × Bool
  | [] => (0, allowsKey)
  | c :: text =>
    if isBreak c then
      let (length, allowsKey) := trivia inFlow (allowsKey || !inFlow) false 0 text
      (length + 1, allowsKey)
    else if inComment ∨ c = '#' then
      let (length, allowsKey) := trivia inFlow allowsKey true (column + 1) text
      (length + 1, allowsKey)
    else if c = ' ' ∨ (c = '\t' ∧ (inFlow ∨ !allowsKey)) ∨ (c = '\ufeff' ∧ column = 0) then
      let (length, allowsKey) := trivia inFlow allowsKey false (column + 1) text
      (length + 1, allowsKey)
    else (0, allowsKey)

/-! ## Blocks -/

/-- Ends all blocks with a margin of more than `limit`. Brackets hide the layout. -/
def endBlocks (limit : Nat) (layout : Layout) : Layout :=
  if layout.inFlow then layout
  else
    let ended := layout.margins.takeWhile (limit < ·)
    { layout with
      tokens := layout.tokens ++ List.replicate ended.length Token.blockEnd
      margins := layout.margins.drop ended.length }

/-- Starts a block in this column, unless the innermost one starts there or further to the right.
Its token goes in front of the token with this index. -/
def startBlock (token : Token) (column index : Nat) (layout : Layout) : Layout :=
  if layout.inFlow ∨ column < layout.margin then layout
  else
    { layout with
      tokens := layout.tokens.insertIdxIfInBounds index token
      margins := (column + 1) :: layout.margins }

/-! ## Keys -/

/-- No key has started here. One that had to be a key makes this an error. -/
def forgetKey? (layout : Layout) : Option Layout :=
  if layout.keyStart.any KeyStart.isRequired then none
  else some { layout with keyStart := none }

/-- Forgets a start that the text has gone past. -/
def current? (place : Place) : Option KeyStart → Option (Option KeyStart)
  | some start =>
    if !start.isPast place then some (some start)
    else if start.isRequired then none
    else some none
  | none => some none

/-- Forgets all starts that the text has gone past. -/
def forgetPastKeys? (place : Place) (layout : Layout) : Option Layout := do
  let keyStart ← current? place layout.keyStart
  let outerStarts ← layout.outerStarts.mapM (current? place)
  return { layout with keyStart, outerStarts }

/-- Keeps the place of a node if it may be a key. -/
def markKey? (place : Place) (layout : Layout) : Option Layout :=
  if layout.allowsKey then
    layout.forgetKey?.map fun layout =>
      { layout with
        keyStart := some ⟨layout.tokens.size, place,
          !layout.inFlow && layout.margin == place.column + 1⟩ }
  else some layout

/-! ## Tokens -/

/-- An anchor, a tag, a scalar or an alias. A key may start here, and none right behind. -/
def addNode? (place : Place) (token : Token) (layout : Layout) : Option Layout :=
  (layout.markKey? place).map fun layout => (layout.push token).setAllowsKey false

/-- The start or the end of a document, or a directive. -/
def addBoundary? (token : Token) (layout : Layout) : Option Layout :=
  (layout.endBlocks 0).forgetKey?.map fun layout => (layout.push token).setAllowsKey false

def openFlow? (place : Place) (token : Token) (layout : Layout) : Option Layout :=
  (layout.markKey? place).map fun layout =>
    { (layout.push token).setAllowsKey true with
      keyStart := none
      outerStarts := layout.keyStart :: layout.outerStarts }

def closeFlow? (token : Token) (layout : Layout) : Option Layout :=
  layout.forgetKey?.map fun layout =>
    let layout := (layout.push token).setAllowsKey false
    match layout.outerStarts with
    | keyStart :: outerStarts => { layout with keyStart, outerStarts }
    | [] => layout

def addComma? (layout : Layout) : Option Layout :=
  layout.forgetKey?.map fun layout => (layout.push .comma).setAllowsKey true

/-- Starts a block at a dash, question mark or colon; outside of brackets this has to be where a key
may start. -/
def enterBlock? (place : Place) (token : Token) (layout : Layout) : Option Layout :=
  if !layout.inFlow ∧ !layout.allowsKey then none
  else some (layout.startBlock token place.column layout.tokens.size)

def addDash? (place : Place) (layout : Layout) : Option Layout := do
  let layout ← (← layout.enterBlock? place .blockSequence).forgetKey?
  return (layout.push .dash).setAllowsKey true

/-- A question mark. -/
def addKey? (place : Place) (layout : Layout) : Option Layout := do
  let layout ← (← layout.enterBlock? place .blockMapping).forgetKey?
  return (layout.push .key).setAllowsKey !layout.inFlow

/-- A colon. It makes a key of the node before it, if that may be one. -/
def addValue? (place : Place) (layout : Layout) : Option Layout :=
  match layout.keyStart with
  | some start =>
    let layout := { layout with
      tokens := layout.tokens.insertIdxIfInBounds start.index .key, keyStart := none }
    let layout := layout.startBlock .blockMapping start.place.column start.index
    some ((layout.push .value).setAllowsKey false)
  | none =>
    (layout.enterBlock? place .blockMapping).map fun layout =>
      (layout.push .value).setAllowsKey !layout.inFlow

/-- An anchor. Its number tells how many names have been anchors before. -/
def addAnchor? (place : Place) (name : String) (layout : Layout) : Option Layout :=
  let number := (layout.anchors.map Prod.fst).eraseDups.length
  addNode? place (.anchor number)
    { layout with anchors := (name, number) :: layout.anchors }

def addAlias? (place : Place) (name : String) (layout : Layout) : Option Layout :=
  (layout.anchors.lookup name).bind fun number => layout.addNode? place (.reference number)

def addBlockScalar? (folded : Bool) (text : List Char) (layout : Layout) :
    Option (Layout × Nat) := do
  let layout ← layout.forgetKey?
  let (value, length) ← readBlock? folded layout.margin text
  let token := Token.scalar (if folded then .folded else .literal) (String.ofList value)
  return ((layout.push token).setAllowsKey true, length)

def addQuoted? (place : Place) (read : Option (List Char × Nat)) (layout : Layout) :
    Option (Layout × Nat) := do
  let (value, length) ← read
  return (← layout.addNode? place (.scalar .quoted (String.ofList value)), length)

/-- A plain scalar. If the gap behind it goes over the end of a line, a key may start there. -/
def addPlain? (place : Place) (c : Char) (text : List Char) (layout : Layout) :
    Option (Layout × Nat) :=
  if startsPlain layout.inFlow c text then do
    let tail ← Plain.read? layout.margin layout.inFlow (place.column + 1) .none text
    let layout ← layout.addNode? place (.scalar .plain (String.ofList (c :: tail.text)))
    return (layout.setAllowsKey tail.isBroken, tail.length)
  else none

/-- Reads the token that starts with `c` at this place, before `text`. Gives the layout behind it,
and how many characters of `text` belong to it. -/
def read? (place : Place) (c : Char) (text : List Char) (layout : Layout) :
    Option (Layout × Nat) :=
  if place.column = 0 ∧ c = '%' then do
    let line := lineOf text
    let directive ← Directive.ofLine? line
    return (← layout.addBoundary? (.directive directive), line.length)
  else if place.column = 0 ∧ startsDocumentMark (c :: text) then
    (layout.addBoundary? (if c = '-' then .documentStart else .documentEnd)).map (·, 2)
  else
    let isMark := layout.inFlow || endsWord text
    match c with
    | '[' => (layout.openFlow? place .flowSequence).map (·, 0)
    | '\x7b' => (layout.openFlow? place .flowMapping).map (·, 0)
    | ']' => (layout.closeFlow? .flowSequenceEnd).map (·, 0)
    | '\x7d' => (layout.closeFlow? .flowMappingEnd).map (·, 0)
    | ',' => layout.addComma?.map (·, 0)
    | '-' =>
      if endsWord text then (layout.addDash? place).map (·, 0)
      else layout.addPlain? place c text
    | '?' =>
      if isMark then (layout.addKey? place).map (·, 0) else layout.addPlain? place c text
    | ':' =>
      if isMark then (layout.addValue? place).map (·, 0) else layout.addPlain? place c text
    | '*' => do
      let (name, length) ← readName? text
      return (← layout.addAlias? place name, length)
    | '&' => do
      let (name, length) ← readName? text
      return (← layout.addAnchor? place name, length)
    | '!' => do
      let (tag, length) ← readTag? layout.inFlow text
      return (← layout.addNode? place (.tag tag), length)
    | '|' => if layout.inFlow then none else layout.addBlockScalar? false text
    | '>' => if layout.inFlow then none else layout.addBlockScalar? true text
    | '\'' => layout.addQuoted? place (readSingleQuoted? (place.column + 1) .none text)
    | '"' => layout.addQuoted? place (readDoubleQuoted? (place.column + 1) .none text)
    | _ => layout.addPlain? place c text

def readAll? (layout : Layout) (cursor : Cursor) : Option (List Token) :=
  let (length, allowsKey) :=
    trivia layout.inFlow layout.allowsKey false cursor.place.column cursor.rest
  let start := skip cursor length
  let layout := layout.setAllowsKey allowsKey
  match _rest : start.rest with
  | [] => do
    let layout ← layout.forgetPastKeys? start.place
    return (← (layout.endBlocks 0).forgetKey?).tokens.toList
  | c :: text => do
    let layout ← layout.forgetPastKeys? start.place
    let layout := layout.endBlocks (start.place.column + 1)
    let (layout, length) ← layout.read? start.place c text
    readAll? layout (skip start (length + 1))
termination_by cursor.rest.length
decreasing_by
  have h := congrArg List.length _rest
  simp only [start, rest_skip, List.length_drop, List.length_cons] at h ⊢
  omega

end Layout

namespace Token

def ofText? (text : String) : Option (List Token) :=
  if text.toList.all isAllowed then
    Layout.readAll? {} ⟨unifyBreaks text.toList, ⟨1, 0⟩⟩
  else none

end Token

end LineGrammar.Yaml

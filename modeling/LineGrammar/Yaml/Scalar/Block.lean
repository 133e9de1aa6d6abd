import LineGrammar.Yaml.Text

/-!
# Block scalars

A block scalar is a header and lines that are indented. The header may give the indentation, which
otherwise is that of the first line that is not empty, and tell what becomes of the line ends at the
end. In literal style all line ends stay, in folded style they are folded between lines that start
without a blank.
-/

namespace LineGrammar.Yaml

/-- Which line ends at its end belong to a block scalar: none, that of the last line, or all. -/
inductive Chomping where
  | strip
  | clip
  | keep
  deriving DecidableEq, Repr

/-- What the line behind the mark of a block scalar says. -/
structure BlockHeader where
  chomping : Chomping
  /-- How far the lines are indented below the block around. -/
  indent : Option Nat
  deriving DecidableEq, Repr

namespace BlockHeader

def chomping? : Char → Option Chomping
  | '+' => some .keep
  | '-' => some .strip
  | _ => none

/-- Reads the marks of a header: at most one of each kind, in any order. -/
def ofMarks? : List Char → Option BlockHeader
  | [] => some ⟨.clip, none⟩
  | [c] =>
    match chomping? c with
    | some chomping => some ⟨chomping, none⟩
    | none => if '1' ≤ c ∧ c ≤ '9' then some ⟨.clip, some (c.toNat - '0'.toNat)⟩ else none
  | [c, d] =>
    match chomping? c, chomping? d with
    | some chomping, none =>
      if '1' ≤ d ∧ d ≤ '9' then some ⟨chomping, some (d.toNat - '0'.toNat)⟩ else none
    | none, some chomping =>
      if '1' ≤ c ∧ c ≤ '9' then some ⟨chomping, some (c.toNat - '0'.toNat)⟩ else none
    | _, _ => none
  | _ => none

/-- Reads a header: marks, blanks and a comment. -/
def ofLine? (line : List Char) : Option BlockHeader :=
  let marks := line.takeWhile fun c => !isBlank c && c != '#'
  match (line.drop marks.length).dropWhile isBlank with
  | [] => ofMarks? marks
  | '#' :: _ => ofMarks? marks
  | _ => none

end BlockHeader

/-- The empty lines in front of a line of a block scalar, and the indentation of that line. -/
structure Lead where
  /-- The ends of the empty lines. -/
  breaks : List Char
  /-- The largest indentation of these lines. -/
  widest : Nat
  /-- The column where the indentation ends. -/
  column : Nat
  /-- How many characters are passed over. -/
  length : Nat
  deriving DecidableEq, Repr

namespace Lead

/-- Reads empty lines and indentation, of at most `indent` spaces if this is not zero. Tabs must not
indent. -/
def read? (indent column : Nat) : List Char → Option Lead
  | [] => some ⟨[], column, column, 0⟩
  | c :: text =>
    if isBreak c then
      (read? indent 0 text).map fun lead =>
        ⟨c :: lead.breaks, max column lead.widest, lead.column, lead.length + 1⟩
    else if isBlank c ∧ (indent = 0 ∨ column < indent) then
      if c = '\t' then none
      else (read? indent (column + 1) text).map fun lead => { lead with length := lead.length + 1 }
    else some ⟨[], column, column, 0⟩

end Lead

structure BlockLine where
  text : List Char
  /-- The end of the line, if the text goes on behind it. -/
  lineEnd : Option Char
  /-- The ends of the empty lines behind it. -/
  breaks : List Char
  deriving DecidableEq, Repr

namespace BlockLine

def startsBlank (line : BlockLine) : Bool :=
  line.text.head?.any isBlank

def lineEnds (line : BlockLine) : List Char :=
  line.lineEnd.toList ++ line.breaks

/-- What stands between a line and the next one in folded style. -/
def joint (line next : BlockLine) : List Char :=
  if line.lineEnd = some '\n' ∧ !line.startsBlank ∧ !next.startsBlank then
    if line.breaks = [] then [' '] else line.breaks
  else line.lineEnds

/-- What stands behind the last line. -/
def ending (chomping : Chomping) (line : BlockLine) : List Char :=
  match chomping with
  | .strip => []
  | .clip => line.lineEnd.toList
  | .keep => line.lineEnds

def join (folded : Bool) (chomping : Chomping) : List BlockLine → List Char
  | [] => []
  | [line] => line.text ++ line.ending chomping
  | line :: next :: lines =>
    line.text ++ (if folded then line.joint next else line.lineEnds) ++
      join folded chomping (next :: lines)

/-- Reads the lines that are indented up to column `indent`, from there on. Gives them, and how many
characters are passed over. -/
def readAll? (indent column : Nat) (text : List Char) : Option (List BlockLine × Nat) :=
  if column ≠ indent ∨ text = [] then some ([], 0)
  else
    let line := lineOf text
    match _rest : text.drop line.length with
    | [] => some ([⟨line, none, []⟩], line.length)
    | c :: rest => do
      let lead ← Lead.read? indent 0 rest
      let (lines, length) ← readAll? indent lead.column (rest.drop lead.length)
      return (⟨line, some c, lead.breaks⟩ :: lines, line.length + 1 + lead.length + length)
termination_by text.length
decreasing_by
  have h := congrArg List.length _rest
  simp only [List.length_drop, List.length_cons] at h ⊢
  omega

end BlockLine

/-- Reads a block scalar behind its mark, in a block whose lines start in column `margin` or later.
Gives its text, and how many characters are passed over. -/
def readBlock? (folded : Bool) (margin : Nat) (text : List Char) : Option (List Char × Nat) := do
  let line := lineOf text
  let header ← BlockHeader.ofLine? line
  let start := min (line.length + 1) text.length
  let given := header.indent.map (margin - 1 + ·)
  let lead ← Lead.read? (given.getD 0) 0 (text.drop start)
  let indent := given.getD (max (max lead.widest margin) 1)
  let (lines, length) ←
    BlockLine.readAll? indent lead.column (text.drop (start + lead.length))
  let front := if lines = [] ∧ header.chomping ≠ .keep then [] else lead.breaks
  return (front ++ BlockLine.join folded header.chomping lines, start + lead.length + length)

end LineGrammar.Yaml

/-!
# Blanks, words and lines

Texts are lists of characters here. A blank is a character with the Unicode property White_Space;
words are what blanks separate, and lines are what line ends separate.
-/

namespace LineGrammar.Text

def isBlank (c : Char) : Bool :=
  let n := c.toNat
  (0x9 ≤ n && n ≤ 0xD) || n == 0x20 || n == 0x85 || n == 0xA0 || n == 0x1680 ||
    (0x2000 ≤ n && n ≤ 0x200A) || n == 0x2028 || n == 0x2029 || n == 0x202F || n == 0x205F ||
    n == 0x3000

def trim (text : List Char) : List Char :=
  ((text.dropWhile isBlank).reverse.dropWhile isBlank).reverse

/-- Puts a word in front, unless it is empty. -/
def consWord (word : List Char) (words : List (List Char)) : List (List Char) :=
  if word.isEmpty then words else word :: words

/-- The part of the text before its first blank, and the words after that. -/
def firstWord : List Char → List Char × List (List Char)
  | [] => ([], [])
  | c :: text =>
    let (word, rest) := firstWord text
    if isBlank c then ([], consWord word rest) else (c :: word, rest)

/-- The words of a text: its longest stretches without blanks. -/
def words (text : List Char) : List (List Char) :=
  consWord (firstWord text).1 (firstWord text).2

/-- The lines of a text. A line end is a line feed, with a carriage return before it if there is
one; text after the last line end is a line if it is not empty. -/
def lines : List Char → List (List Char)
  | [] => []
  | '\r' :: '\n' :: text => [] :: lines text
  | '\n' :: text => [] :: lines text
  | c :: text =>
    match lines text with
    | [] => [[c]]
    | line :: rest => (c :: line) :: rest

end LineGrammar.Text

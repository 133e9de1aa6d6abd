import LineGrammar.Yaml.Node

/-!
# From tokens to nodes

A node starts with its properties, or is an alias. Its content is a scalar, a sequence or a mapping;
what is left out of an entry is an empty scalar. A text has one document at most, with directives in
front and a mark where it starts, and with marks where it ends; all of these may be left out.

Every reader takes tokens from the front and gives what is behind them, with a proof that this is
shorter; the readers of nodes therefore end.
-/

namespace LineGrammar.Yaml

/-- What has been read from the front of some tokens, and fewer than `bound` tokens behind it. -/
structure Front (α : Type) (bound : Nat) where
  value : α
  rest : List Token
  length_rest_lt : rest.length < bound

namespace Front

/-- The same with a larger bound. -/
def relax {α : Type} {bound larger : Nat} (front : Front α bound) (h : bound ≤ larger) :
    Front α larger :=
  ⟨front.value, front.rest, Nat.lt_of_lt_of_le front.length_rest_lt h⟩

/-- Another value in front of the same tokens. -/
def map {α β : Type} {bound : Nat} (f : α → β) (front : Front α bound) : Front β bound :=
  ⟨f front.value, front.rest, front.length_rest_lt⟩

end Front

namespace Properties

/-- Reads the properties of a node: at most one of each kind, in any order. -/
def ofTokens? (directives : List Directive) (tokens : List Token) :
    Option (Front Properties (tokens.length + 1)) :=
  let resolve (tag : TagName) : Option (Option String) :=
    (tag.octets? directives).map fun octets => String.fromUTF8? octets.toByteArray
  match tokens with
  | .anchor anchor :: .tag tag :: rest =>
    (resolve tag).map fun tag => ⟨⟨anchor, tag⟩, rest, by simp only [List.length_cons]; omega⟩
  | .tag tag :: .anchor anchor :: rest =>
    (resolve tag).map fun tag => ⟨⟨anchor, tag⟩, rest, by simp only [List.length_cons]; omega⟩
  | .anchor anchor :: rest => some ⟨⟨anchor, none⟩, rest, by simp only [List.length_cons]; omega⟩
  | .tag tag :: rest =>
    (resolve tag).map fun tag => ⟨⟨none, tag⟩, rest, by simp only [List.length_cons]; omega⟩
  | rest => some ⟨{}, rest, Nat.lt_succ_self _⟩

/-- The tag of an exclamation mark alone says nothing about a scalar. -/
def forScalar (properties : Properties) : Properties :=
  { properties with tag := properties.tag.filter (· ≠ "!") }

end Properties

namespace Node

inductive Site where
  /-- Between brackets: no blocks. -/
  | flow
  | block
  /-- At a key or value of a block: also a sequence whose dashes stand in the column of the keys. -/
  | entry
  deriving DecidableEq, Repr

/-! ## Where something is left out -/

/-- Is a key or value of a block left out in front of this token? -/
def endsEntry : Token → Bool
  | .key => true
  | .value => true
  | .blockEnd => true
  | _ => false

/-- Is an item of a block left out in front of this token? -/
def endsItem : Token → Bool
  | .dash => true
  | .blockEnd => true
  | _ => false

/-- Is an item in the column of the keys around left out in front of this token? -/
def endsEntryItem (token : Token) : Bool :=
  endsEntry token || endsItem token

/-- Is a value between brackets left out in front of this token, when `close` is the last one? -/
def endsFlowValue (close token : Token) : Bool :=
  token = .comma || token = close

/-- Is a key between brackets left out in front of this token? -/
def endsFlowKey (close token : Token) : Bool :=
  token = .value || endsFlowValue close token

/-! ## Nodes -/

/-- A node with properties only, if there are any in front of the rest. -/
def bare? (properties : Properties) (rest : List Token) (bound : Nat) : Option (Front Node bound) :=
  if h : rest.length < bound then some ⟨scalar properties .plain "", rest, h⟩ else none

mutual

def ofTokens? (directives : List Directive) (site : Site) (tokens : List Token) :
    Option (Front Node tokens.length) :=
  match tokens with
  | .reference anchor :: rest => some ⟨reference anchor, rest, Nat.lt_succ_self _⟩
  | tokens =>
    (Properties.ofTokens? directives tokens).bind fun ⟨properties, content, h⟩ =>
      match content, h with
      | .scalar style text :: rest, h =>
        some ⟨scalar properties.forScalar style text, rest, Nat.lt_of_succ_lt_succ h⟩
      | .flowSequence :: rest, h =>
        have h := Nat.lt_of_succ_lt_succ h
        (flowItems? directives rest).map fun items =>
          (items.map (sequence properties)).relax (Nat.le_of_lt h)
      | .flowMapping :: rest, h =>
        have h := Nat.lt_of_succ_lt_succ h
        (flowEntries? directives rest).map fun entries =>
          (entries.map (mapping properties)).relax (Nat.le_of_lt h)
      | .blockSequence :: rest, h =>
        have h := Nat.lt_of_succ_lt_succ h
        if site = .flow then bare? properties (.blockSequence :: rest) tokens.length
        else (blockItems? directives rest).map fun items =>
          (items.map (sequence properties)).relax (Nat.le_of_lt h)
      | .blockMapping :: rest, h =>
        have h := Nat.lt_of_succ_lt_succ h
        if site = .flow then bare? properties (.blockMapping :: rest) tokens.length
        else (blockEntries? directives rest).map fun entries =>
          (entries.map (mapping properties)).relax (Nat.le_of_lt h)
      | .dash :: rest, h =>
        have h := Nat.lt_of_succ_lt_succ h
        if site = .entry then
          (entryItems? directives rest).map fun items =>
            (items.map (sequence properties)).relax h
        else bare? properties (.dash :: rest) tokens.length
      | content, _ => bare? properties content tokens.length
termination_by (tokens.length, 0)

/-- Reads a node, unless it is left out in front of such a token. -/
def orMissing? (directives : List Directive) (site : Site) (ends : Token → Bool)
    (tokens : List Token) : Option (Front Node (tokens.length + 1)) :=
  if tokens.head?.any ends then some ⟨missing, tokens, Nat.lt_succ_self _⟩
  else (ofTokens? directives site tokens).map fun node => node.relax (Nat.le_succ _)
termination_by (tokens.length, 1)

/-- Reads the value behind a key. -/
def valueOrMissing? (directives : List Directive) (site : Site) (ends : Token → Bool)
    (tokens : List Token) : Option (Front Node (tokens.length + 1)) :=
  match tokens with
  | .value :: rest =>
    (orMissing? directives site ends rest).map fun node => node.relax (Nat.le_succ _)
  | tokens => some ⟨missing, tokens, Nat.lt_succ_self _⟩
termination_by (tokens.length, 2)

def blockItems? (directives : List Directive) (tokens : List Token) :
    Option (Front (List Node) tokens.length) :=
  match tokens with
  | .blockEnd :: rest => some ⟨[], rest, Nat.lt_succ_self _⟩
  | .dash :: tokens =>
    (orMissing? directives .block endsItem tokens).bind fun ⟨item, rest, h⟩ =>
      (blockItems? directives rest).map fun items =>
        (items.map (item :: ·)).relax (Nat.le_of_lt h)
  | _ => none
termination_by (tokens.length, 2)

/-- Reads the items of a sequence whose dashes stand in the column of the keys around, behind the
first dash. -/
def entryItems? (directives : List Directive) (tokens : List Token) :
    Option (Front (List Node) (tokens.length + 1)) :=
  (orMissing? directives .block endsEntryItem tokens).bind fun ⟨item, rest, h⟩ =>
    match rest, h with
    | .dash :: rest, h =>
      have h := Nat.lt_of_succ_lt_succ h
      (entryItems? directives rest).map fun items =>
        (items.map (item :: ·)).relax (Nat.le_succ_of_le h)
    | rest, h => some ⟨[item], rest, h⟩
termination_by (tokens.length, 2)

def blockEntries? (directives : List Directive) (tokens : List Token) :
    Option (Front (List (Node × Node)) tokens.length) :=
  match tokens with
  | .blockEnd :: rest => some ⟨[], rest, Nat.lt_succ_self _⟩
  | .key :: tokens =>
    (orMissing? directives .entry endsEntry tokens).bind fun ⟨key, rest, hk⟩ =>
      (valueOrMissing? directives .entry endsEntry rest).bind fun ⟨value, rest, hv⟩ =>
        have h := Nat.lt_of_lt_of_le hv hk
        (blockEntries? directives rest).map fun entries =>
          (entries.map ((key, value) :: ·)).relax (Nat.le_of_lt h)
  | _ => none
termination_by (tokens.length, 2)

/-- Reads an item of a sequence: a node, or behind a question mark a key with its value, which are a
mapping of their own. -/
def flowItem? (directives : List Directive) (tokens : List Token) :
    Option (Front Node tokens.length) :=
  match tokens with
  | .key :: tokens =>
    (pairKey? directives tokens).bind fun ⟨key, rest, hk⟩ =>
      (valueOrMissing? directives .flow (endsFlowValue .flowSequenceEnd) rest).map
        fun ⟨value, rest, hv⟩ => ⟨mapping {} [(key, value)], rest, Nat.lt_of_lt_of_le hv hk⟩
  | tokens => ofTokens? directives .flow tokens
termination_by (tokens.length, 3)

/-- Reads the key of such a mapping. Where it is left out, the token that shows this counts as the
key. -/
def pairKey? (directives : List Directive) (tokens : List Token) :
    Option (Front Node (tokens.length + 1)) :=
  match tokens with
  | token :: rest =>
    if endsFlowKey .flowSequenceEnd token then
      some ⟨missing, rest, Nat.lt_succ_of_lt (Nat.lt_succ_self _)⟩
    else (ofTokens? directives .flow (token :: rest)).map fun node => node.relax (Nat.le_succ _)
  | [] => none
termination_by (tokens.length, 1)

/-- Reads the items of a sequence, up to its bracket. -/
def flowItems? (directives : List Directive) (tokens : List Token) :
    Option (Front (List Node) tokens.length) :=
  match tokens with
  | .flowSequenceEnd :: rest => some ⟨[], rest, Nat.lt_succ_self _⟩
  | tokens =>
    (flowItem? directives tokens).bind fun ⟨item, rest, h⟩ =>
      match rest, h with
      | .comma :: rest, h =>
        have h := Nat.lt_of_succ_lt h
        (flowItems? directives rest).map fun items =>
          (items.map (item :: ·)).relax (Nat.le_of_lt h)
      | .flowSequenceEnd :: rest, h => some ⟨[item], rest, Nat.lt_of_succ_lt h⟩
      | _, _ => none
termination_by (tokens.length, 4)

/-- Reads an entry of a mapping. A key without a question mark or colon has no value. -/
def flowPair? (directives : List Directive) (tokens : List Token) :
    Option (Front (Node × Node) tokens.length) :=
  match tokens with
  | .key :: tokens =>
    (orMissing? directives .flow (endsFlowKey .flowMappingEnd) tokens).bind fun ⟨key, rest, hk⟩ =>
      (valueOrMissing? directives .flow (endsFlowValue .flowMappingEnd) rest).map
        fun ⟨value, rest, hv⟩ => ⟨(key, value), rest, Nat.lt_of_lt_of_le hv hk⟩
  | tokens => (ofTokens? directives .flow tokens).map fun key => key.map (·, missing)
termination_by (tokens.length, 3)

/-- Reads the entries of a mapping, up to its bracket. -/
def flowEntries? (directives : List Directive) (tokens : List Token) :
    Option (Front (List (Node × Node)) tokens.length) :=
  match tokens with
  | .flowMappingEnd :: rest => some ⟨[], rest, Nat.lt_succ_self _⟩
  | tokens =>
    (flowPair? directives tokens).bind fun ⟨entry, rest, h⟩ =>
      match rest, h with
      | .comma :: rest, h =>
        have h := Nat.lt_of_succ_lt h
        (flowEntries? directives rest).map fun entries =>
          (entries.map (entry :: ·)).relax (Nat.le_of_lt h)
      | .flowMappingEnd :: rest, h => some ⟨[entry], rest, Nat.lt_of_succ_lt h⟩
      | _, _ => none
termination_by (tokens.length, 4)

end

/-! ## Documents -/

/-- The directives in front of some tokens, and what is behind them. -/
def splitDirectives : List Token → List Directive × List Token
  | .directive directive :: tokens =>
    let (directives, rest) := splitDirectives tokens
    (directive :: directives, rest)
  | tokens => ([], tokens)

/-- Is the content of a document left out in front of this token? -/
def endsDocument : Token → Bool
  | .directive _ => true
  | .documentStart => true
  | .documentEnd => true
  | _ => false

/-- Reads the content of a document, with what is behind it. -/
def ofContent? (directives : List Directive) (tokens : List Token) : Option (Node × List Token) :=
  if tokens.head?.all endsDocument then some (missing, tokens)
  else (ofTokens? directives .block tokens).map fun root => (root.value, root.rest)

/-- Reads the only document of a text. Directives have to stand in front of a mark. -/
def ofAllTokens? (tokens : List Token) : Option Node := do
  let (directives, tokens) := splitDirectives tokens
  let (root, rest) ←
    match directives, tokens with
    | directives, .documentStart :: tokens =>
      if Directive.areValid directives then ofContent? directives tokens else none
    | [], [] => some (missing, [])
    | [], tokens => (ofTokens? [] .block tokens).map fun root => (root.value, root.rest)
    | _, _ => none
  if rest.all (· = .documentEnd) then return root else none

end Node

end LineGrammar.Yaml

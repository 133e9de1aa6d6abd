import LineGrammar.Declaration.Walk
import LineGrammar.Parse
import LineGrammar.Program.Execution
import LineGrammar.Program.Listing
import LineGrammar.Program.OfTree
import LineGrammar.Token.Lexer

/-!
# Sessions

A session takes a grammar and then program text, both a line at a time, and runs the program.
Program tokens wait until a terminator ends their statement, and are then fed to the parse as one
line. Running declares, compiles and executes what has been parsed so far, each time from an empty
store.
-/

namespace LineGrammar

inductive SessionError where
  | lexical (error : LexError)
  | grammar (error : GrammarError)
  | parse (error : ParseError)
  | declaration (error : DeclarationError)
  | compile (error : CompileError)
  | execution (error : ExecutionError)
  | noProgram
  deriving DecidableEq

def SessionError.message : SessionError → String
  | lexical error => error.message
  | grammar error => error.message
  | parse error => error.message
  | declaration error => error.message
  | compile error => error.message
  | execution error => error.message
  | noProgram => "No program has been parsed"

/-- The kind of text that a session takes next. -/
inductive SessionStage where
  | grammar
  | program
  deriving DecidableEq, Repr

structure Session where
  settings : Settings := {}
  draft : Draft := { markers := settings.markers }
  parse : Parse := {}
  store : Store := {}
  /-- The walk through the declarations that was made last, perhaps not to its end. -/
  walk : DeclarationWalk := {}
  /-- Program tokens that wait for a terminator. -/
  pending : List Token := []
  /-- How many lines of program text have been fed. -/
  sourceLine : Nat := 0
  /-- The program that was compiled last, unless more text has been fed since. -/
  program : Option Program := none

/-- An action of a session changes it, also when the action fails. -/
abbrev SessionAction := ExceptT SessionError (StateM Session)

namespace Session

def ofSettings (settings : Settings) : Session :=
  { settings }

def stage (session : Session) : SessionStage :=
  if session.draft.isFinished then .program else .grammar

def lift {ε α : Type} (wrap : ε → SessionError) : Except ε α → SessionAction α
  | .ok answer => return answer
  | .error error => throw (wrap error)

def grammar : SessionAction Grammar := do
  lift .grammar (← get).draft.grammar?

/-! ## Feeding text -/

def feedGrammarLine (line : String) : SessionAction Unit := do
  let session ← get
  let (draft, result) := session.draft.feedText line
  set { session with draft }
  lift .grammar result

/-- Feeds the waiting tokens to the parse. They wait no longer, also when they do not fit. -/
def flush (grammar : Grammar) : SessionAction Unit := do
  let session ← get
  let (parse, result) := session.parse.feed grammar session.pending
  set { session with parse, pending := [] }
  let _ ← lift .parse result

/-- Takes the tokens of a line, statement by statement. Where one does not fit, the tokens after it
are dropped. -/
def takeTokens (grammar : Grammar) : List Token → SessionAction Unit
  | [] => return
  | token :: tokens => do
    let session ← get
    set { session with pending := session.pending ++ [token] }
    match token.spelling with
    | some text => if session.settings.isTerminator text then flush grammar
    | none => pure ()
    takeTokens grammar tokens

/-- Is more program text expected? -/
def expectsMore : SessionAction Bool := do
  return !(← get).parse.isComplete

/-- Feeds a line of program text, and tells whether more is expected. -/
def feedProgramLine (line : String) : SessionAction Bool := do
  modify fun session => { session with sourceLine := session.sourceLine + 1 }
  let grammar ← grammar
  let tokens ← lift .lexical (tokenize line (← get).sourceLine)
  modify fun session => { session with program := none }
  takeTokens grammar tokens
  expectsMore

def finishProgram : SessionAction Bool := do
  let grammar ← grammar
  flush grammar
  expectsMore

def feedLine (line : String) : SessionAction Unit := do
  match (← get).stage with
  | .grammar => feedGrammarLine line
  | .program => let _ ← feedProgramLine line

def linesOf (text : String) : List String :=
  (Text.lines text.toList).map String.ofList

def loadGrammar (text : String) : SessionAction Unit :=
  (linesOf text).forM feedGrammarLine

def loadProgram (text : String) : SessionAction Unit := do
  (linesOf text).forM fun line => do let _ ← feedProgramLine line
  let _ ← finishProgram

/-! ## Running -/

def tree : SessionAction Tree := do
  match (← get).parse.root with
  | some root => return root
  | none => throw .noProgram

/-- Declares what the program declares, and tells how often that stopped at a loop. -/
def declare : SessionAction Nat := do
  let root ← tree
  let session ← get
  let walk := session.walk.restart
  let (store, result) := walk.run session.settings root 0 {}
  set { session with store, walk := walk.ended session.settings root {} }
  lift .declaration result

def compile : SessionAction Program := do
  let _ ← grammar
  let _ ← declare
  let root ← tree
  let session ← get
  let (result, store) := Program.ofTree session.settings.statements root session.store
  set { session with store }
  let program ← lift .compile result
  modify fun session => { session with program := some program }
  return program

/-- Declares, compiles and executes the program, and returns the lines that it prints. -/
def run : SessionAction (List String) := do
  let program ← compile
  let session ← get
  let (store, result) := program.execute session.store session.settings.stepLimit
  set { session with store }
  lift .execution result

/-! ## Views -/

def listing? (session : Session) : Option String :=
  session.program.map fun program => program.listing session.store

def errorReport (session : Session) : List String :=
  session.draft.report

def firstSets : SessionAction (List String) := do
  return (← grammar).describeFirst

def followSets : SessionAction (List String) := do
  return (← grammar).describeFollow

/-! ## Starting over -/

def clearProgram (session : Session) : Session :=
  { settings := session.settings, draft := session.draft }

def clear (session : Session) : Session :=
  { settings := session.settings, draft := session.draft.clear }

end Session

end LineGrammar

import LineGrammar.Session
import LineGrammar.Settings.Reader

/-!
# The command line

The program takes a grammar file and a program file, or the program from standard input, and runs
it. It can print the FIRST and FOLLOW sets and the listing first. How files are read is left open,
so that the same steps can be taken with files of any kind.
-/

namespace LineGrammar

namespace CommandLine

/-- What the arguments say. -/
structure Arguments where
  files : List String := []
  config : Option String := none
  logLevel : Option String := none
  printSets : Bool := false
  listing : Bool := false
  deriving DecidableEq, Repr

/-- What follows a beginning of an argument. -/
def after? (start argument : String) : Option String :=
  if start.toList.isPrefixOf argument.toList then
    some (String.ofList (argument.toList.drop start.length))
  else none

namespace Arguments

def setConfig (arguments : Arguments) (file : String) : Option Arguments :=
  if arguments.config.isSome then none else some { arguments with config := some file }

def setLogLevel (arguments : Arguments) (level : String) : Option Arguments :=
  if arguments.logLevel.isSome then none else some { arguments with logLevel := some level }

def addSingle (arguments : Arguments) (argument : String) : Option Arguments :=
  if argument = "--print-sets" then
    if arguments.printSets then none else some { arguments with printSets := true }
  else if argument = "--listing" then
    if arguments.listing then none else some { arguments with listing := true }
  else
    match after? "--config=" argument, after? "--log-level=" argument, after? "-c=" argument with
    | some file, _, _ => arguments.setConfig file
    | _, some level, _ => arguments.setLogLevel level
    | _, _, some file => arguments.setConfig file
    | none, none, none =>
      if argument = "-" ∨ (after? "-" argument).isNone then
        some { arguments with files := arguments.files ++ [argument] }
      else
        match after? "-c" argument with
        | some file => if file = "" then none else arguments.setConfig file
        | none => none

/-- Reads arguments. Behind two dashes all are files. -/
def add (arguments : Arguments) : List String → Option Arguments
  | [] => some arguments
  | "--" :: files => some { arguments with files := arguments.files ++ files }
  | "--config" :: file :: rest => (arguments.setConfig file).bind (add · rest)
  | "-c" :: file :: rest => (arguments.setConfig file).bind (add · rest)
  | "--log-level" :: level :: rest => (arguments.setLogLevel level).bind (add · rest)
  | argument :: rest => (arguments.addSingle argument).bind (add · rest)

end Arguments

structure Outcome where
  exit : Nat
  stdout : String
  stderr : String
  deriving DecidableEq, Repr

/-- Why a run fails: what it was about, and the cause of the failure. -/
inductive Failure where
  | step (context : String) (cause : Option String)
  /-- All work was broken off. -/
  | breakdown
  deriving DecidableEq, Repr

structure Printed where
  stdout : String := ""
  stderr : String := ""

/-- The steps of a run, where files are read in a monad. -/
abbrev Steps (m : Type → Type) := ExceptT Failure (StateT Printed m)

/-- How texts are read: a file, with the reason if it cannot be read, and standard input. -/
structure Reader (m : Type → Type) where
  file : String → m (Except String String)
  input : m (Except String String)

variable {m : Type → Type} [Monad m]

def print (text : String) : Steps m Unit :=
  modify fun printed => { printed with stdout := printed.stdout ++ text }

def printError (text : String) : Steps m Unit :=
  modify fun printed => { printed with stderr := printed.stderr ++ text }

def readFile (reader : Reader m) (name : String) : Steps m String := do
  match ← reader.file name with
  | .ok text => return text
  | .error cause => throw (.step ("Reading " ++ name) (some cause))

def readProgram (reader : Reader m) : Option String → Steps m String
  | some name => readFile reader name
  | none => do
    match ← reader.input with
    | .ok text => return text
    | .error cause => throw (.step "Reading stdin" (some cause))

/-- Lets a session act; a failure is told with the step that it was part of. -/
def act {α : Type} (context : String) (action : SessionAction α) (session : Session) :
    Steps m (α × Session) :=
  match action.run.run session with
  | (.ok answer, session) => return (answer, session)
  | (.error (.execution .breakdown), _) => throw .breakdown
  | (.error error, _) => throw (.step context (some error.message))

def loadSettings (reader : Reader m) : Option String → Steps m Settings
  | none => return {}
  | some name => do
    match Settings.read? (← readFile reader name) with
    | some settings => return settings
    | none => throw (.step ("Loading " ++ name) (some "Parsing session config"))

/-- Loads the grammar. Its faults are reported also when it cannot be loaded. -/
def loadGrammar (reader : Reader m) (name : String) (session : Session) : Steps m Session := do
  let text ← readFile reader name
  let (result, session) := (Session.loadGrammar text).run.run session
  for line in session.errorReport do
    printError (line ++ "\n")
  match result with
  | .error error => throw (.step ("Loading grammar " ++ name) (some error.message))
  | .ok () =>
    if session.stage = .program then return session
    else throw (.step ("Grammar " ++ name ++ " has no end marker") none)

def unlines (lines : List String) : String :=
  String.join (lines.map (· ++ "\n"))

/-- Takes all steps of a run. -/
def steps (reader : Reader m) (arguments : Arguments) (grammarFile : String)
    (programFile : Option String) : Steps m Unit := do
  let settings ← loadSettings reader arguments.config
  let session ← loadGrammar reader grammarFile (.ofSettings settings)
  if arguments.printSets then
    let (first, _) ← act "" Session.firstSets session
    let (follow, _) ← act "" Session.followSets session
    print (unlines (first ++ follow))
  let source ← readProgram reader programFile
  let ((), session) ← act "Parsing program" (Session.loadProgram source) session
  if arguments.listing then
    let (_, session) ← act "Compiling program" Session.compile session
    print (session.listing?.getD "")
  let (output, _) ← act "Running program" Session.run session
  print (unlines output)

def usage : String :=
  "usage: [--config FILE] [--print-sets] [--listing] GRAMMAR [PROGRAM]\n"

def indented (text : String) : String :=
  String.join ((text.splitOn "\n").map ("\n    " ++ ·))

def Failure.message : Failure → String
  | step context none => "Error: " ++ context ++ "\n"
  | step context (some cause) => "Error: " ++ context ++ "\n\nCaused by:" ++ indented cause ++ "\n"
  | breakdown => ExecutionError.breakdown.message ++ "\n"

def Failure.exit : Failure → Nat
  | step _ _ => 1
  | breakdown => 101

/-- Runs with the files of the arguments. -/
def runWith (reader : Reader m) (arguments : Arguments) (grammarFile : String)
    (programFile : Option String) : m Outcome := do
  let (result, printed) ← (steps reader arguments grammarFile programFile).run.run {}
  match result with
  | .ok () => return ⟨0, printed.stdout, printed.stderr⟩
  | .error failure =>
    return ⟨failure.exit, printed.stdout, printed.stderr ++ failure.message⟩

def run (reader : Reader m) (arguments : List String) : m Outcome :=
  match Arguments.add {} arguments with
  | none => return ⟨2, "", usage⟩
  | some read =>
    match read.files with
    | [grammar] => runWith reader read grammar none
    | [grammar, program] => runWith reader read grammar (some program)
    | _ => return ⟨2, "", usage⟩

end CommandLine

end LineGrammar

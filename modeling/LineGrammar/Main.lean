import LineGrammar.CommandLine

/-!
# The program

Files are read from the file system, and texts are printed to the standard streams.
-/

namespace LineGrammar.CommandLine

def readingCause : IO.Error → String
  | .noFileOrDirectory _ _ _ => "No such file or directory (os error 2)"
  | error => toString error

def readingResult (read : IO String) : IO (Except String String) := do
  match ← read.toBaseIO with
  | .ok text => return .ok text
  | .error error => return .error (readingCause error)

def systemReader : Reader IO where
  file name := readingResult (IO.FS.readFile name)
  input := readingResult do (← IO.getStdin).readToEnd

end LineGrammar.CommandLine

def main (arguments : List String) : IO UInt32 := do
  let outcome ← LineGrammar.CommandLine.run LineGrammar.CommandLine.systemReader arguments
  IO.print outcome.stdout
  IO.eprint outcome.stderr
  return outcome.exit.toUInt32

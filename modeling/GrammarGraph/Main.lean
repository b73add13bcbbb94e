import GrammarGraph.CommandLine.Commands

/-! # The program -/

open GrammarGraph GrammarGraph.CommandLine

/-- The reason why a file cannot be read, in the words of the system. -/
def readFailure : IO.Error → String
  | .noFileOrDirectory _ code _ => "No such file or directory (os error " ++ code.toNat.repr ++ ")"
  | .permissionDenied _ code _ => "Permission denied (os error " ++ code.toNat.repr ++ ")"
  | e => e.toString

/-- The files that arguments may name, read as far as they exist. -/
def loadFiles (args : List String) : IO Files := do
  let mut found : List (String × Except String String) := []
  for path in args do
    let content ← (IO.FS.readFile path).toBaseIO
    found := (path, content.mapError readFailure) :: found
  return fun path => (found.lookup path).getD (.error "No such file or directory (os error 2)")

def main (args : List String) : IO UInt32 := do
  let names := match program.request args with
    | .run _ given => given.positional.toList ++ (given.options.map (·.2))
    | _ => []
  let outcome := run (← loadFiles names) args
  IO.print outcome.out
  IO.eprint outcome.err
  return outcome.status

import PathTyping.Command.Outcome

/-!
# The program

Reads the files that the arguments name, and writes the outcome.
-/

namespace PathTyping

/-- Why a file could not be read. -/
def FileError.ofError : IO.Error → FileError
  | .noFileOrDirectory _ _ _ => .notFound
  | .permissionDenied _ _ _ => .notAllowed
  | .inappropriateType _ 20 _ => .notDirectory
  | .inappropriateType _ _ _ => .isDirectory
  | e => .other (toString e)

/-- The text of a file, which has to be UTF-8. -/
def readText (path : String) : IO (Except FileError String) := do
  try
    let bytes ← IO.FS.readBinFile path
    match String.fromUTF8? bytes with
    | some text => return .ok text
    | none => return .error .notText
  catch e => return .error (.ofError e)

/-- The texts of all files that are asked for. -/
def readTexts : List String → IO (List (String × Except FileError String))
  | [] => return []
  | path :: rest => do
    let text ← readText path
    return (path, text) :: (← readTexts rest)

/-- The files that the arguments ask for, as they are now. -/
def filesFor (arguments : List String) : IO Files := do
  let paths := match Invocation.ofArguments? arguments with
    | some (.run r) => r.paths
    | _ => []
  let texts ← readTexts paths
  return fun path => (Assoc.find? texts path).getD (.error .notFound)

/-- The number by which a status is told to whoever started the program. -/
def Status.exitCode : Status → UInt32
  | .success => 0
  | .failure => 1
  | .usage => 2
  | .aborted => 101

end PathTyping

open PathTyping in
def main (arguments : List String) : IO UInt32 := do
  let outcome := Outcome.ofArguments (← filesFor arguments) arguments
  IO.print outcome.output
  IO.eprint outcome.errors
  return outcome.status.exitCode

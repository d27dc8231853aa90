import FormulaCode.Cli

namespace FormulaCode.Cli

-- Reads a file, and sorts what can go wrong.
def readFile (path : String) : IO (Except ReadError String) := do
  try
    match String.fromUTF8? (← IO.FS.readBinFile path) with
    | some text => return .ok text
    | none => return .error .notText
  catch
    | .noFileOrDirectory .. => return .error .notFound
    | .inappropriateType .. => return .error .isDirectory
    | e => return .error (.other (toString e))

end FormulaCode.Cli

open FormulaCode

def main (args : List String) : IO UInt32 := do
  let arguments := Cli.Arguments.parse args
  let contents ← match arguments.input with
    | some path => if arguments.has "--file" then Cli.readFile path else pure (.ok "")
    | none => pure (.ok "")
  let outcome := Cli.run (fun _ => contents) args
  (← IO.getStdout).putStr outcome.stdout
  (← IO.getStderr).putStr outcome.stderr
  return outcome.exitCode.toUInt32

import TickCircuit.CommandLine
/-!
Runs a gate type of a registry document from the command line.
-/
open TickCircuit CommandLine

def main (args : List String) : IO UInt32 := do
  match Options.parse args with
  | none =>
    IO.eprintln usage
    return 2
  | some options =>
    let document ← try
      pure (Except.ok (← IO.FS.readFile options.registry))
    catch e => pure (Except.error (toString e))
    match CommandLine.run options document with
    | .ok lines =>
      lines.forM IO.println
      return 0
    | .error problem =>
      IO.eprintln problem.message
      return 1

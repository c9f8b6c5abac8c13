/-
**The executable.**

Main definitions:

* `main` — reads the document named on the command line, if any, and runs the tool.
-/

import AccessQuery.Cli

set_option relaxedAutoImplicit false
set_option autoImplicit false

/-- Runs the tool. -/
def main (args : List String) : IO UInt32 := do
  let document ← match args with
    | [_, path] =>
        try
          pure (Except.ok (← IO.FS.readFile path))
        catch e => pure (Except.error e.toString)
    | _ => pure (Except.error "no document")
  let outcome := AccessQuery.Cli.run AccessQuery.Cli.defaultProgram args fun _ => document
  (← IO.getStdout).putStr outcome.output
  (← IO.getStderr).putStr outcome.errors
  return outcome.code.toUInt32

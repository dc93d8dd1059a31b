import Animator.CommandLine.Execution

/-!
# The program

Reads the files that a command line names, executes the command, and writes the report.
-/

open Animator

/-- The content of a file, if it can be read. -/
def readIfPossible (path : String) : IO (Option String) := do
  try
    return some (← IO.FS.readFile path)
  catch _ =>
    return none

/-- Write a file; false if that is not possible. -/
def writeIfPossible (path content : String) : IO Bool := do
  try
    IO.FS.writeFile path content
    return true
  catch _ =>
    return false

/-- The files that a `command` reads. -/
def filesOf (c : CommandLine) : List String :=
  let model :=
    match c.command with
    | .check path => path
    | .run call => call.model
  model :: c.options.settings.toList

def failWith (failure : CommandLine.Failure) : IO UInt32 := do
  IO.eprintln ("Error: " ++ failure.message)
  return 1

/-- Execute the command on the command line. -/
def main (args : List String) : IO UInt32 := do
  match CommandLine.parse args with
  | none =>
    IO.eprintln "usage: check MODEL | run MODEL OWNER OPERATION [ARGS]..."
    return 2
  | some c =>
    let known ← (filesOf c).mapM fun path => return (path, ← readIfPossible path)
    let report := c.execute fun path => (known.find? (·.1 == path)).bind (·.2)
    IO.print report.output
    IO.eprint report.diagnostics
    let refused ←
      match report.file with
      | some (path, content) => pure !(← writeIfPossible path content)
      | none => pure false
    match refused, report.file, report.result with
    | true, some (path, _), _ => failWith (.write path)
    | _, _, .error failure => failWith failure
    | _, _, .ok text =>
      IO.print text
      return 0

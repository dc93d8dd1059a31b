import Animator.CommandLine.Basic
import Animator.Json.Parser
import Animator.Json.Printer
import Animator.Session

/-!
# Executing a command

A command reads files and writes text. `CommandLine.execute` takes the contents of the files and
gives everything that is to be written; writing it is left to its caller.
-/

namespace Animator

namespace CommandLine

/-- Why a command failed. -/
inductive Failure where
  /-- A file could not be read. -/
  | read (path : String)
  /-- A file could not be written. -/
  | write (path : String)
  | json (what : String) (reason : Json.Mismatch)
  /-- Not a file and a line. -/
  | breakpoint (spec : String)
  | noStatement (spec : String)
  /-- A document that stands for no value. -/
  | argument (text : String)
  | eval (text : String)

/-- What happened, in words. -/
def Failure.message : Failure → String
  | .read path => "cannot read " ++ path
  | .write path => "cannot write " ++ path
  | .json what reason => "invalid " ++ what ++ ": " ++ reason.message
  | .breakpoint spec => "invalid breakpoint '" ++ spec ++ "', expected file:line"
  | .noStatement spec => "no statement at " ++ spec
  | .argument text => "unsupported argument " ++ text
  | .eval text => text

/-- What a command writes. -/
structure Report where
  output : String := ""
  diagnostics : String := ""
  file : Option (String × String) := none
  /-- The last part of the output, or why there is none. -/
  result : Except Failure String

/-- What a text stands for. -/
def decode {α : Type} (what text : String) (read : String → Except Json.Mismatch α) :
    Except Failure α :=
  match read text with
  | .ok a => .ok a
  | .error reason => .error (.json what reason)

def contents (files : String → Option String) (path : String) : Except Failure String :=
  match files path with
  | some text => .ok text
  | none => .error (.read path)

/-- The `settings` of an execution: those in the file, changed by the options. -/
def Options.load (o : Options) (files : String → Option String) : Except Failure Settings := do
  let settings ←
    match o.settings with
    | some path =>
      decode ("settings " ++ path) (← contents files path) fun text =>
        Json.parse .stepwise text >>= Settings.ofJson
    | none => pure {}
  return { settings with
    dialect := if o.realTime then .realTime else settings.dialect
    exceptions := settings.exceptions || o.exceptions
    preChecks := settings.preChecks && !o.noPre
    invChecks := settings.invChecks && !o.noInv
    timeLimit := o.timeLimit.or settings.timeLimit }

def loadModel (files : String → Option String) (path : String) : Except Failure Model := do
  let text ← contents files path
  decode ("model " ++ path) text fun text => do
    let j ← Json.parse .stepwise text
    return (← (Model.ofJson j .alternatives).run {}).1

mutual

/-- The value of a document: texts are sequences of characters, arrays are sequences. -/
def valueOf : Json → Except Failure Value
  | .null => .ok .nil
  | .bool b => .ok (.bool b)
  | .int n => .ok (if Value.inIntRange n then .int n else .real (.ofInt n))
  | .real x => .ok (.real x)
  | .str s => .ok (.ofText s)
  | .arr items => do return .seq (← valuesOf items)
  | .obj fields => .error (.argument (Json.obj fields).compress)
  | .unreadable => .error (.argument Json.unreadable.compress)

def valuesOf : List Json → Except Failure (List Value)
  | [] => .ok []
  | j :: rest => do
    let v ← valueOf j
    return v :: (← valuesOf rest)

end

def argument (text : String) : Except Failure Value := do
  valueOf (← decode ("argument " ++ text) text (Json.parseValue .stepwise)).normalize

/-- The `file` and the line of a `breakpoint`, divided by the last colon. -/
def place (spec : String) : Except Failure (String × Nat) :=
  let reversed := spec.toList.reverse
  let line := (reversed.takeWhile (· != ':')).reverse
  match reversed.dropWhile (· != ':') with
  | [] => .error (.breakpoint spec)
  | _ :: file =>
    match natural? Word.size32 (.ofList line) with
    | some n => .ok (.ofList file.reverse, n)
    | none => .error (.breakpoint spec)

/-- Set breakpoints that always stop. -/
def setBreakpoints (s : Session) : List String → Except Failure Session
  | [] => .ok s
  | spec :: rest => do
    let (file, line) ← place spec
    match s.breakAt file line .always with
    | (some _, s) => setBreakpoints s rest
    | (none, _) => .error (.noStatement spec)

/-- Begin a `Session`, or fail as its initialisation does. -/
def begin (model : Model) (settings : Settings) : Except Failure Session :=
  match Session.create { model, settings } {} [] with
  | (.ok (), s) => .ok s
  | (.error halt, s) => .error (.eval (halt.text s.machine.heap))

/-- The lines for the threads that ended with a value. -/
def threadLines (h : Heap) (outcomes : List ThreadOutcome) : String :=
  String.join (outcomes.map fun t =>
    match t.result with
    | .ok v => "thread " ++ toString t.id ++ " (" ++ t.name ++ ") = " ++ h.text v ++ "\n"
    | .error _ => "")

def check (o : Options) (files : String → Option String) (path : String) :
    Except Failure String := do
  let settings ← o.load files
  let model ← loadModel files path
  let _ ← begin model settings
  return "ok: " ++ toString model.modules.length ++ " modules, " ++ toString model.classes.length
    ++ " classes initialised\n"

/-- The `Session` and the arguments of a call. -/
def prepare (o : Options) (files : String → Option String) (call : Call) :
    Except Failure (Session × List Value) := do
  let settings ← o.load files
  let model ← loadModel files call.model
  let args ← call.args.mapM argument
  let s ← setBreakpoints (← begin model settings) call.breakpoints
  return (if call.breakpoints.isEmpty then s else s.setLink (some {}), args)

/-- Call a routine, let all threads come to their ends, and `report`. -/
def report (call : Call) (s : Session) (args : List Value) : Report :=
  let (result, s) := s.run (·.call call.owner call.operation args)
  let (outcomes, s) := (s.keep result).run (·.joinAll)
  let (stops, s) := s.takeStops
  let h := s.machine.heap
  let coverage := s.coverage
  { output := threadLines h (outcomes.toOption.getD [])
    diagnostics :=
      String.join (stops.map (·.report)) ++ (if call.coverage.isSome then coverage.text else "")
    file := call.coverage.map fun path => (path, coverage.toJson.pretty)
    result :=
      match result with
      | .ok v => .ok (call.owner ++ "`" ++ call.operation ++ " = " ++ h.text v ++ "\n")
      | .error halt => .error (.eval (halt.text h)) }

def execute (c : CommandLine) (files : String → Option String) : Report :=
  match c.command with
  | .check path => { result := check c.options files path }
  | .run call =>
    match prepare c.options files call with
    | .ok (s, args) => report call s args
    | .error failure => { result := .error failure }

end CommandLine

end Animator

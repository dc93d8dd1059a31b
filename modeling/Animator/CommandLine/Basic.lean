import Animator.Word

/-!
# The command line

`check MODEL` initialises a model, `run MODEL OWNER OPERATION [ARGS]` calls one of its routines.
Options may stand anywhere among the words; a word after `--` is never an option.
-/

namespace Animator

namespace CommandLine

inductive Flag where
  | settings
  | realTime
  | exceptions
  | noPre
  | noInv
  | timeLimit
  | breakpoint
  | coverage
  deriving DecidableEq, Repr, Inhabited

namespace Flag

/-- The option with a long name. -/
def ofName? : String → Option Flag
  | "settings" => some .settings
  | "realtime" => some .realTime
  | "exceptions" => some .exceptions
  | "no-pre" => some .noPre
  | "no-inv" => some .noInv
  | "time-limit" => some .timeLimit
  | "break" => some .breakpoint
  | "coverage" => some .coverage
  | _ => none

/-- The option with a short name. -/
def ofLetter? : Char → Option Flag
  | 's' => some .settings
  | 'b' => some .breakpoint
  | _ => none

def takesValue : Flag → Bool
  | .settings | .timeLimit | .breakpoint | .coverage => true
  | _ => false

/-- Whether the option belongs to calls only. -/
def isForRun : Flag → Bool
  | .breakpoint | .coverage => true
  | _ => false

end Flag

/-- Words sorted into options and others. -/
structure Words where
  /-- The options, with their values or an empty text. -/
  options : List (Flag × String) := []
  others : List String := []
  deriving DecidableEq, Repr, Inhabited

namespace Words

def addOption (w : Words) (flag : Flag) (value : String) : Words :=
  { w with options := w.options ++ [(flag, value)] }

def addOther (w : Words) (word : String) : Words :=
  { w with others := w.others ++ [word] }

def values (w : Words) (flag : Flag) : List String :=
  (w.options.filter (·.1 == flag)).map (·.2)

def has (w : Words) (flag : Flag) : Bool :=
  w.options.any (·.1 == flag)

/-- Whether no option that has to be unique is given twice. -/
def isUnique (w : Words) : Bool :=
  [Flag.settings, .realTime, .exceptions, .noPre, .noInv, .timeLimit, .coverage].all fun flag =>
    (w.values flag).length ≤ 1

end Words

/-- What a word is, as far as options are concerned. -/
inductive Word where
  | dashes
  /-- An option, and the value in the same word. -/
  | option (flag : Flag) (value : Option String)
  | other
  /-- It looks like an option and is none. -/
  | unknown
  deriving DecidableEq, Repr

/-- The part before an equals sign and the part after it. -/
def splitAtEquals (word : List Char) : String × Option String :=
  let name := word.takeWhile (· != '=')
  match word.dropWhile (· != '=') with
  | [] => (.ofList name, none)
  | _ :: value => (.ofList name, some (.ofList value))

/-- Classify a word. -/
def Word.ofString (word : String) : Word :=
  match word.toList with
  | ['-', '-'] => .dashes
  | '-' :: '-' :: rest =>
    let (name, value) := splitAtEquals rest
    match Flag.ofName? name with
    | some flag => .option flag value
    | none => .unknown
  | '-' :: letter :: rest =>
    match Flag.ofLetter? letter, rest with
    | some flag, [] => .option flag none
    | some flag, '=' :: value => .option flag (some (.ofList value))
    | some flag, value => .option flag (some (.ofList value))
    | none, _ => .unknown
  | _ => .other

/-- Sort words into options and others. Reading stops after some number of other words. -/
def sort (allowed : Flag → Bool) (limit : Nat) : Words → List String → Option (Words × List String)
  | found, [] => some (found, [])
  | found, word :: rest =>
    if limit ≤ found.others.length then some (found, word :: rest)
    else
      match Word.ofString word with
      | .other => sort allowed limit (found.addOther word) rest
      | .dashes => some ({ found with others := found.others ++ rest }, [])
      | .unknown => none
      | .option flag value =>
        if !allowed flag then none
        else
          match flag.takesValue, value, rest with
          | false, none, rest => sort allowed limit (found.addOption flag "") rest
          | false, some _, _ => none
          | true, some value, rest => sort allowed limit (found.addOption flag value) rest
          | true, none, [] => none
          | true, none, value :: rest =>
            match Word.ofString value with
            | .other => sort allowed limit (found.addOption flag value) rest
            | _ => none

/-- A natural below a `bound`, in decimal `digits` that a plus may precede. -/
def natural? (bound : Nat) (text : String) : Option Nat :=
  let digits :=
    match text.toList with
    | '+' :: digits => digits
    | digits => digits
  if digits.isEmpty || !digits.all Char.isDigit then none
  else
    let n := digits.foldl (fun n c => 10 * n + (c.toNat - '0'.toNat)) 0
    if n < bound then some n else none

/-- The options of an execution. -/
structure Options where
  settings : Option String := none
  realTime : Bool := false
  exceptions : Bool := false
  noPre : Bool := false
  noInv : Bool := false
  timeLimit : Option Nat := none
  deriving DecidableEq, Repr, Inhabited

/-- What a call needs. -/
structure Call where
  model : String
  owner : String
  operation : String
  args : List String
  /-- Where to report stops, each a file and a line. -/
  breakpoints : List String
  coverage : Option String
  deriving DecidableEq, Repr, Inhabited

/-- What is to be done. -/
inductive Command where
  | check (model : String)
  | run (call : Call)
  deriving DecidableEq, Repr

/-- The path in an option; an empty one is refused. -/
def path? (values : List String) : Option (Option String) :=
  match values with
  | [] => some none
  | value :: _ => if value.isEmpty then none else some (some value)

/-- The options given before the command and after it. Of two values the later one counts. -/
def options? (before after : Words) : Option Options := do
  let settings ← path? (before.values .settings)
  let inner ← path? (after.values .settings)
  let limit (w : Words) : Option (Option Nat) :=
    (w.values .timeLimit).head?.mapM (natural? Word.size64)
  let outerLimit ← limit before
  let innerLimit ← limit after
  let has (flag : Flag) : Bool := before.has flag || after.has flag
  return {
    settings := inner.or settings
    realTime := has .realTime
    exceptions := has .exceptions
    noPre := has .noPre
    noInv := has .noInv
    timeLimit := innerLimit.or outerLimit }

end CommandLine

/-- A `command` and its options. -/
structure CommandLine where
  options : CommandLine.Options
  command : CommandLine.Command
  deriving DecidableEq, Repr

namespace CommandLine

/-- Understand the words of a `command` line. -/
def parse (words : List String) : Option CommandLine := do
  let (before, rest) ← sort (!·.isForRun) 1 {} words
  let isCheck ←
    match before.others with
    | ["check"] => some true
    | ["run"] => some false
    | _ => none
  let (after, _) ← sort (fun flag => !isCheck || !flag.isForRun) (rest.length + 1) {} rest
  guard (before.isUnique && after.isUnique)
  let options ← options? before after
  match isCheck, after.others with
  | true, [model] =>
    guard !model.isEmpty
    return { options, command := .check model }
  | false, model :: owner :: operation :: args =>
    guard !model.isEmpty
    let coverage ← path? (after.values .coverage)
    let breakpoints := after.values .breakpoint
    return { options, command := .run { model, owner, operation, args, breakpoints, coverage } }
  | _, _ => none

end CommandLine

end Animator

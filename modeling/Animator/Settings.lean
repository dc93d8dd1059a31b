import Animator.Tree.Reader
import Animator.Tree.Writer

/-!
# Settings

What an evaluation checks, logs and limits.
-/

namespace Animator

open Json (Mismatch)

/-- Which language is evaluated. -/
inductive Dialect where
  | plain
  /-- Every node is a preemption point, and threads are not stepped through. -/
  | realTime
  deriving DecidableEq, Repr, Inhabited

/-- The choices an evaluation depends on. -/
structure Settings where
  dialect : Dialect := .plain
  /-- Turn fatal errors into exits with the error number and its message. -/
  exceptions : Bool := false
  preChecks : Bool := true
  /-- Check class invariants after every operation on an object. -/
  invChecks : Bool := true
  logInstanceChanges : Bool := false
  /-- The virtual time at which periodic threads end. -/
  timeLimit : Option Nat := none
  defaultHz : Nat := 1000000000
  deriving DecidableEq, Repr, Inhabited

namespace Settings

/-- The default `Settings` of the real-time `dialect`. -/
def realTime : Settings :=
  { dialect := .realTime }

def isRealTime (s : Settings) : Bool :=
  s.dialect == .realTime

end Settings

/-- A `Dialect`, by its name. -/
def Dialect.ofJson (j : Json) : Except Mismatch Dialect := do
  let (tag, content) ← j.variant
  Json.noContent content
  match tag with
  | "plain" => return .plain
  | "real_time" => return .realTime
  | _ => throw (.expected "a dialect")

def Dialect.toJson : Dialect → Json
  | .plain => .str "plain"
  | .realTime => .str "real_time"

/-- Settings, with defaults for the parts that are left out. -/
def Settings.ofJson (j : Json) : Except Mismatch Settings := do
  let f ← j.fields ["dialect", "exceptions", "pre_checks", "inv_checks", "log_instance_changes",
    "time_limit", "default_cpu_hz"]
  let part {α : Type} (name : String) (absent : α) (read : Json → Except Mismatch α) :
      Except Mismatch α :=
    match f.get? name with
    | some value => read value
    | none => return absent
  let word := Json.natural Word.size64
  return {
    dialect := ← part "dialect" .plain Dialect.ofJson
    exceptions := ← part "exceptions" false Json.boolean
    preChecks := ← part "pre_checks" true Json.boolean
    invChecks := ← part "inv_checks" true Json.boolean
    logInstanceChanges := ← part "log_instance_changes" false Json.boolean
    timeLimit := ← part "time_limit" none fun j => j.option.mapM word
    defaultHz := ← part "default_cpu_hz" 1000000000 word }

/-- All parts of the `Settings`. -/
def Settings.toJson (s : Settings) : Json :=
  .obj [
    ("dialect", s.dialect.toJson),
    ("exceptions", .bool s.exceptions),
    ("pre_checks", .bool s.preChecks),
    ("inv_checks", .bool s.invChecks),
    ("log_instance_changes", .bool s.logInstanceChanges),
    ("time_limit", .ofOption (s.timeLimit.map .ofNat)),
    ("default_cpu_hz", .ofNat s.defaultHz)]

end Animator

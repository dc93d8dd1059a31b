import Animator.Context
import Animator.Halt

/-!
# Stops

A thread that stops reports where and why it does, and goes on with the command it is given. A
`Link` is the debugger's side: it has its commands ready, evaluates its watch expressions at every
stop, and may leave before the execution is over, after which threads go on unattended.
-/

namespace Animator

/-- How a stopped thread goes on. -/
inductive Command where
  | continue
  | stepIn
  | stepOver
  | stepOut
  | terminate
  deriving DecidableEq, Repr, Inhabited

/-- Why a thread stopped. -/
inductive StopReason where
  | breakpoint (number : Nat)
  | step
  | pause
  /-- A catchpoint took a raised value. -/
  | catch (number : Nat) (value : Value)
  /-- A `fatal` error is about to unwind. -/
  | fatal (message : String)
  deriving Inhabited

namespace StopReason

def kind : StopReason → String
  | .breakpoint _ => "breakpoint"
  | .step => "step"
  | .pause => "pause"
  | .catch _ _ => "catch"
  | .fatal _ => "fatal"

def text (h : Heap) : StopReason → String
  | .breakpoint n => "breakpoint [" ++ toString n ++ "]"
  | .step => "step"
  | .pause => "pause"
  | .catch n value => "catchpoint [" ++ toString n ++ "] caught " ++ h.text value
  | .fatal message => "fatal: " ++ message

end StopReason

/-- A stop, as the debugger sees it. -/
structure Stop where
  thread : ThreadId
  threadName : String
  reason : StopReason
  location : Location
  frames : List Frame
  bindings : Bindings
  watches : List Outcome
  heap : Heap
  hits : Hits
  deriving Inhabited

/-- The stop as a `report` of several lines. -/
def Stop.report (s : Stop) : String :=
  let first := "stopped (" ++ s.reason.text s.heap ++ ") at " ++ s.location.text ++ " on thread "
    ++ s.threadName ++ "\n"
  let frames := s.frames.map fun f => "    in " ++ f.title ++ " at " ++ f.location.text ++ "\n"
  let bindings := s.bindings.map fun (name, v) =>
    "    " ++ name.text ++ " = " ++ s.heap.text v ++ "\n"
  first ++ String.join frames ++ String.join bindings

/-- An attached debugger. -/
structure Link where
  script : List Command := []
  fallback : Command := .continue
  watch : List Expr := []
  leaveAfter : Option Nat := none
  leaveAt : Option Nat := none
  seen : Nat := 0
  gone : Bool := false
  deriving Inhabited

namespace Link

/-- Whether the debugger takes notice of a stop. -/
def isAttending (l : Link) : Bool :=
  !l.gone && l.leaveAfter.all (l.seen < ·)

/-- Take notice of one stop, and `answer` it. -/
def answer (l : Link) : Command × Link :=
  let seen := l.seen + 1
  if l.leaveAt == some seen then (.continue, { l with seen, gone := true })
  else
    match l.script with
    | command :: script => (command, { l with seen, script })
    | [] => (l.fallback, { l with seen })

end Link

end Animator

/-!
# Threads

A thread is what a chain of contexts runs on. It counts how many sections of each kind it is in,
and it remembers where a debugger wants it to stop next.
-/

namespace Animator

/-- The number of a thread; the first one is number one. -/
abbrev ThreadId := Nat

abbrev ContextId := Nat

/-- Where a stepping thread stops: on another line than the given one, unless one of the marked
contexts is still running. -/
structure StepTarget where
  /-- The line where stepping began; a thread without one is not stepping. -/
  line : Option Nat := none
  next : Option ContextId := none
  /-- Do not stop in what this context called. -/
  out : Option ContextId := none
  deriving DecidableEq, Repr, Inhabited

/-- A part of an evaluation with rules of its own. -/
inductive Section where
  /-- No other thread gets a turn. -/
  | atomic
  | pure
  | debugging
  deriving DecidableEq, Repr, Inhabited

/-- A simulated thread. -/
structure Thread where
  id : ThreadId
  name : String
  /-- The processor it is bound to; zero is the default one. -/
  cpu : Nat := 0
  atomicDepth : Nat := 0
  pureDepth : Nat := 0
  /-- How many evaluations for the debugger it is in. -/
  debugDepth : Nat := 0
  stopRequested : Bool := false
  step : StepTarget := {}
  deriving DecidableEq, Repr, Inhabited

namespace Thread

def isAtomic (t : Thread) : Bool :=
  0 < t.atomicDepth

def isPure (t : Thread) : Bool :=
  0 < t.pureDepth

def isDebugging (t : Thread) : Bool :=
  0 < t.debugDepth

def isStepping (t : Thread) : Bool :=
  t.step.line.isSome

def enter (t : Thread) : Section → Thread
  | .atomic => { t with atomicDepth := t.atomicDepth + 1 }
  | .pure => { t with pureDepth := t.pureDepth + 1 }
  | .debugging => { t with debugDepth := t.debugDepth + 1 }

def leave (t : Thread) : Section → Thread
  | .atomic => { t with atomicDepth := t.atomicDepth - 1 }
  | .pure => { t with pureDepth := t.pureDepth - 1 }
  | .debugging => { t with debugDepth := t.debugDepth - 1 }

def requestStop (t : Thread) : Thread :=
  { t with stopRequested := true }

def stepTo (t : Thread) (step : StepTarget) : Thread :=
  { t with step }

/-- Leaving the `Section` just entered restores the thread. -/
@[simp]
theorem leave_enter (t : Thread) (s : Section) : (t.enter s).leave s = t := by
  cases s <;> rfl

end Thread

end Animator

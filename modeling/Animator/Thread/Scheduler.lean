import Animator.Halt
import Animator.Thread.Basic

/-!
# The scheduler

The scheduler knows every thread, its virtual clock in nanoseconds, and the clock rates of the
processors. A started thread waits until the threads are joined; it counts as running until then.

Clocks are 64-bit words. A thread whose clock would not fit dies: it gets no further and has no
outcome, but it goes on to count as running.
-/

namespace Animator

/-- A request to whichever thread checks for it first. -/
inductive Interrupt where
  | none
  | pause
  | terminate
  deriving DecidableEq, Repr, Inhabited

/-- When a thread is active. -/
inductive Timing where
  | plain
  | periodic (period jitter delay offset : Nat)
  | sporadic (minDelay maxDelay offset : Nat)
  deriving DecidableEq, Repr, Inhabited

/-- What a thread does when it is active. -/
inductive ThreadBody where
  /-- Run a statement on the object. -/
  | statement (object : ObjectRef) (body : Stmt)
  /-- Call an operation of the object. -/
  | operation (object : ObjectRef) (op : OperationValue)
  deriving Inhabited

/-- A thread that has been started. -/
structure Job where
  timing : Timing
  body : ThreadBody
  deriving Inhabited

/-- What the scheduler knows of a thread. -/
structure ThreadRecord where
  thread : Thread
  object : Option ObjectRef := none
  /-- Whether that object had no thread when this one was started. Nothing looks at this later. -/
  alone : Bool := true
  clock : Nat := 0
  /-- How often another thread could have had a turn. -/
  yields : Nat := 0
  /-- Whether it is in a statement with a fixed cost. -/
  timed : Bool := false
  /-- Whether it has not come to its end. -/
  running : Bool := true
  outcome : Option Outcome := none
  /-- Whether it was ended by a clock that did not fit. -/
  dead : Bool := false
  deriving Inhabited

/-- Let time pass, if the `clock` can count it; otherwise the thread dies. -/
def ThreadRecord.charge (r : ThreadRecord) (duration : Nat) : ThreadRecord :=
  { r with
    clock := if r.clock + duration < Word.size64 then r.clock + duration else r.clock
    dead := r.dead || Word.size64 ≤ r.clock + duration }

/-- All threads and processors. -/
structure Scheduler where
  nextId : ThreadId := 1
  /-- The clock rate of processors that were not defined. -/
  defaultHz : Nat := 1000000000
  timeLimit : Option Nat := none
  /-- The clock `rates` of the processors that were defined. -/
  rates : List (Nat × Nat) := []
  /-- The threads, in the order of their numbers. -/
  records : List ThreadRecord := []
  /-- The threads that wait to be joined, in the order in which they were started. -/
  waiting : List (ThreadId × Job) := []
  interrupt : Interrupt := .none
  /-- The objects whose threads were `asked` to stop, the latest first. Nothing looks at this later.
  -/
  asked : List ObjectRef := []
  deriving Inhabited

namespace Scheduler

/-- A `Scheduler` without threads. -/
def ofSettings (hz : Nat) (timeLimit : Option Nat) : Scheduler :=
  { defaultHz := max hz 1, timeLimit }

def record? (s : Scheduler) (id : ThreadId) : Option ThreadRecord :=
  s.records.find? (·.thread.id == id)

def modify (s : Scheduler) (id : ThreadId) (f : ThreadRecord → ThreadRecord) : Scheduler :=
  { s with records := s.records.map fun r => if r.thread.id == id then f r else r }

/-- Add a thread that is running already. -/
def attach (s : Scheduler) (name : String) (cpu : Nat) : ThreadId × Scheduler :=
  (s.nextId,
    { s with
      nextId := s.nextId + 1
      records := s.records ++ [{ thread := { id := s.nextId, name, cpu } }] })

/-- Add a thread that waits to be joined. -/
def spawn (s : Scheduler) (name : String) (cpu : Nat) (object : Option ObjectRef) (alone : Bool)
    (startTime : Nat) (job : Job) : ThreadId × Scheduler :=
  (s.nextId,
    { s with
      nextId := s.nextId + 1
      records := s.records ++
        [{ thread := { id := s.nextId, name, cpu }, object, alone, clock := startTime }]
      waiting := s.waiting ++ [(s.nextId, job)] })

def defineCpu (s : Scheduler) (cpu hz : Nat) : Scheduler :=
  { s with rates := (cpu, max hz 1) :: s.rates }

def rate (s : Scheduler) (cpu : Nat) : Nat :=
  match s.rates.find? (·.1 == cpu) with
  | some (_, hz) => hz
  | none => s.defaultHz

/-- How long a processor takes for some `cycles`, in nanoseconds. -/
def cyclesToDuration (s : Scheduler) (cpu cycles : Nat) : Nat :=
  Word.wrap (cycles * 1000000000 / s.rate cpu)

def time (s : Scheduler) (id : ThreadId) : Nat :=
  match s.record? id with
  | some r => r.clock
  | none => 0

/-- Whether a clock can count some more time. -/
def fits (s : Scheduler) (id : ThreadId) (duration : Nat) : Bool :=
  s.time id + duration < Word.size64

def charge (s : Scheduler) (id : ThreadId) (duration : Nat) : Scheduler :=
  s.modify id (·.charge duration)

def die (s : Scheduler) (id : ThreadId) : Scheduler :=
  s.modify id fun r => { r with dead := true }

def isDead (s : Scheduler) (id : ThreadId) : Bool :=
  (s.record? id).any (·.dead)

def isTimed (s : Scheduler) (id : ThreadId) : Bool :=
  match s.record? id with
  | some r => r.timed
  | none => false

def setTimed (s : Scheduler) (id : ThreadId) (on : Bool) : Scheduler :=
  s.modify id fun r => { r with timed := on }

/-- Offer the other threads a turn. -/
def yieldPoint (s : Scheduler) (id : ThreadId) : Scheduler :=
  s.modify id fun r => { r with yields := r.yields + 1 }

/-- Remember that the thread of an object is `asked` to stop. -/
def ask (s : Scheduler) (o : ObjectRef) : Scheduler :=
  { s with asked := o :: s.asked }

/-- Ask the thread that runs an object to stop; false if there is none. -/
def stop (s : Scheduler) (o : ObjectRef) : Bool × Scheduler :=
  match s.records.find? fun r => r.running && r.object.any (·.id == o.id) with
  | some r =>
    (true, (s.ask o).modify r.thread.id fun r => { r with thread := r.thread.requestStop })
  | none => (false, s.ask o)

/-- Read and clear the pending request. -/
def takeInterrupt (s : Scheduler) : Interrupt × Scheduler :=
  (s.interrupt, { s with interrupt := .none })

/-- Begin an activation of a periodic thread: its `clock` is at least the time it is due. False if
the time of periodic threads is over. -/
def release (s : Scheduler) (id : ThreadId) (due : Nat) : Bool × Scheduler :=
  let s := s.modify id fun r => { r with clock := max r.clock due }
  match s.timeLimit with
  | some limit => (decide (s.time id < limit), s)
  | none => (true, s)

/-- Record the end of a thread; being `stopped` is an ordinary end. -/
def finish (s : Scheduler) (id : ThreadId) (outcome : Outcome) : Scheduler :=
  let outcome :=
    match outcome with
    | .error (.stopped _) => .ok .void
    | other => other
  s.modify id fun r => { r with running := false, outcome := some outcome }

def takeOutcome (s : Scheduler) (id : ThreadId) : Option Outcome × Scheduler :=
  ((s.record? id).bind (·.outcome), s.modify id fun r => { r with outcome := none })

/-- Take the threads that wait to be joined. -/
def takeWaiting (s : Scheduler) : List (ThreadId × Job) × Scheduler :=
  (s.waiting, { s with waiting := [] })

end Scheduler

end Animator

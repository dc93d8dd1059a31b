import Animator.Eval.Run

/-!
# Joining threads

Started threads are run when they are joined, in the order of their numbers. Threads that they start
in turn are run after them.
-/

namespace Animator

/-- How a thread ended. -/
structure ThreadOutcome where
  id : ThreadId
  name : String
  result : Outcome
  deriving Inhabited

/-- When an activation of a periodic thread is due. -/
def dueTime (start period k : Nat) : Nat :=
  start + min (k * max period 1) (Word.size64 - 1)

namespace Engine

/-- The `activations` of a periodic thread, from one of them on. An activation that takes longer
than the period delays the next one. If no clock can count when one is due, the thread dies. -/
def activations (id : ThreadId) (start period : Nat) (body : Nat → Eval Value) :
    Nat → Nat → Eval Value
  | 0, _ => throw .exhausted
  | n + 1, k => do
    if (← Eval.thread id).stopRequested then return .void
    else if dueTime start period k < Word.size64 then
      if ← Eval.schedule (·.release id (dueTime start period k)) then
        let _ ← body k
        activations id start period body n (k + 1)
      else return .void
    else
      Eval.changeScheduler (·.die id)
      throw .exhausted

def periodically (rounds : Nat) (id : ThreadId) (period offset : Nat) (body : Nat → Eval Value) :
    Eval Value := do
  let base ← Eval.reads (·.scheduler.time id)
  activations id (base + offset) period body rounds 0

/-- Run a thread, given what it does in each activation. -/
def runThread (rounds : Nat) (id : ThreadId) (timing : Timing) (body : Nat → Eval Value) :
    Eval Value :=
  match timing with
  | .plain => body 0
  | .periodic period _ _ offset => periodically rounds id period offset body
  | .sporadic minDelay _ offset => periodically rounds id minDelay offset body

/-- Take the outcome of a thread, if it has one. -/
def takeOutcome (id : ThreadId) : Eval (Option ThreadOutcome) := do
  let name := (← Eval.thread id).name
  return (← Eval.schedule (·.takeOutcome id)).map fun result => { id, name, result }

/-- Run a thread to its end, and take its outcome. A thread that has died has none. -/
def joinThread (rounds : Nat) (body : ThreadId → Job → Nat → Eval Value) (id : ThreadId)
    (job : Job) :
    Eval (Option ThreadOutcome) := do
  if let some result ← (runThread rounds id job.timing (body id job)).outcomeOn id then
    Eval.change (·.finish id result)
  takeOutcome id

def joinThreads (rounds : Nat) (body : ThreadId → Job → Nat → Eval Value) :
    List (ThreadId × Job) → Eval (List ThreadOutcome)
  | [] => return []
  | (id, job) :: rest => do
    let first ← joinThread rounds body id job
    return first.toList ++ (← joinThreads rounds body rest)

/-- Run all waiting threads, and those that they start, to their ends. -/
def joinWaiting (rounds : Nat) (body : ThreadId → Job → Nat → Eval Value) :
    Nat → Eval (List ThreadOutcome)
  | 0 => throw .exhausted
  | n + 1 => do
    match ← Eval.schedule (·.takeWaiting) with
    | [] => return []
    | batch =>
      let outcomes ← joinThreads rounds body batch
      return outcomes ++ (← joinWaiting rounds body n)

def activate (E : Engine) (id : ThreadId) (body : ThreadBody) : Eval Value := do
  match body with
  | .statement o s =>
    let root ← Eval.entry (.object o) (o.className ++ " thread") s.location id
    E.stmt s root
  | .operation o op =>
    let location := op.definition.location
    let root ← Eval.entry (.object o) (o.className ++ " thread") location id
    E.callOperation op [] location root

/-- Run all started threads to their ends. -/
def joinAll (E : Engine) : Eval (List ThreadOutcome) :=
  joinWaiting E.rounds (fun id job _ => E.activate id job.body) E.rounds

end Engine

end Animator

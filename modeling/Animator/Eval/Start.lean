import Animator.Eval.Call

/-!
# Starting and stopping threads

An object is started by giving its thread to the scheduler. The times of a periodic or sporadic
thread are evaluated when it is started, and it has to end at some time.
-/

namespace Animator

namespace Machine

/-- Give a thread to the `scheduler`. It runs on the processor its object is deployed on. -/
def spawn (m : Machine) (name : String) (object : Option ObjectRef) (startTime : Nat) (job : Job) :
    ThreadId × Machine :=
  let cpu := (object.bind m.heap.cpu?).getD 0
  let alone := object.all fun ref => (m.heap.object? ref.id).any (·.thread.isNone)
  let (id, scheduler) := m.scheduler.spawn name cpu object alone startTime job
  let heap :=
    match object with
    | some ref => m.heap.setThread ref (some id)
    | none => m.heap
  (id, { m with scheduler, heap })

/-- Record the end of a thread; its object can be started again. -/
def finish (m : Machine) (id : ThreadId) (outcome : Outcome) : Machine :=
  let heap :=
    match (m.scheduler.record? id).bind (·.object) with
    | some ref => m.heap.setThread ref none
    | none => m.heap
  { m with scheduler := m.scheduler.finish id outcome, heap }

end Machine

namespace Engine

/-- The operation that a thread calls. -/
def threadOperation (E : Engine) (o : ObjectRef) (name : Name) (location : Location)
    (ctx : Context) :
    Eval ThreadBody := do
  match (← Eval.heap).field o name with
  | .ok (.operation op) => return .operation o op
  | _ =>
    E.fail .unresolvedCall ("thread operation " ++ name.display ++ " not found") location ctx

/-- When a thread of an object is active, and what it does then. -/
def job (E : Engine) (o : ObjectRef) (location : Location) (ctx : Context) : ThreadDef → Eval Job
  | .plain body => return { timing := .plain, body := .statement o body }
  | .periodic period jitter delay offset operation =>
    Eval.within .atomic ctx.thread do
      let period ← E.nat period ctx
      let jitter ← E.nat jitter ctx
      let delay ← E.nat delay ctx
      let offset ← E.nat offset ctx
      let body ← E.threadOperation o operation location ctx
      return { timing := .periodic period jitter delay offset, body }
  | .sporadic minDelay maxDelay offset operation =>
    Eval.within .atomic ctx.thread do
      let minDelay ← E.nat minDelay ctx
      let maxDelay ← E.nat maxDelay ctx
      let offset ← E.nat offset ctx
      let body ← E.threadOperation o operation location ctx
      return { timing := .sporadic minDelay maxDelay offset, body }

def start (E : Engine) (o : ObjectRef) (location : Location) (ctx : Context) : Eval Unit := do
  let ctx := ctx.hold (.object o)
  let noThread : Eval Unit :=
    E.fail .noThreadDefined ("class " ++ o.className ++ " has no thread") location ctx
  if ((← Eval.heap).thread? o).isSome then
    E.fail .alreadyStarted (o.text ++ " already has a running thread") location ctx
  else
    match (← Eval.reads (·.globals.class? o.className)).bind (·.definition.thread) with
    | none => noThread
    | some thread =>
      let job ← E.job o location ctx thread
      if job.timing ≠ .plain ∧ (← Eval.reads (·.scheduler.timeLimit)).isNone then
        E.fail .noTimeLimit ("periodic thread of " ++ o.text ++ " needs a time limit") location ctx
      else
        Eval.change fun m => (m.spawn o.text (some o) (m.scheduler.time ctx.thread) job).2

def startAll (E : Engine) (location : Location) (ctx : Context) : List ObjectRef → Eval Unit
  | [] => return
  | o :: rest => do
    E.start o location (ctx.holdAll (rest.map .object))
    E.startAll location ctx rest

/-- Ask the threads of some objects to stop. -/
def stopAll : List ObjectRef → Eval Unit
  | [] => return
  | o :: rest => do
    let _ ← Eval.schedule (·.stop o)
    stopAll rest

/-- Take objects out of values. -/
def objectsOf (E : Engine) (location : Location) (ctx : Context) : List Value →
    Eval (List ObjectRef)
  | [] => return []
  | v :: rest => do
    let o ← E.consultHeap (·.objectRef v) location ctx
    return o :: (← E.objectsOf location ctx rest)

def objects (E : Engine) (e : Expr) (ctx : Context) : Eval (List ObjectRef) := do
  let items ← E.set e ctx
  E.objectsOf e.location (ctx.holdAll items) items

end Engine

end Animator

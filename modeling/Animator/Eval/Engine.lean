import Animator.Machine

/-!
# Engines

Evaluation of a tree needs evaluation of the parts of the tree and of the routines that are called,
so it has no bound that could be read off the tree. An `Engine` supplies the evaluation of
expressions and statements; what every construct does is defined on top of it without recursion.
-/

namespace Animator

/-- Evaluation of expressions and statements, for use inside larger ones. -/
structure Engine where
  program : Program
  rounds : Nat
  expr : Expr → Context → Eval Value
  stmt : Stmt → Context → Eval Value

namespace Engine

def settings (E : Engine) : Settings :=
  E.program.settings

/-- Evaluate an expression for the debugger: breakpoints do nothing meanwhile, and an error is a
result. -/
def inspect (E : Engine) (e : Expr) (ctx : Context) : Eval Outcome :=
  (Eval.within .debugging ctx.thread (E.expr e ctx)).outcome

def inspectAll (E : Engine) (ctx : Context) : List Expr → Eval (List Outcome)
  | [] => return []
  | e :: rest => do
    let first ← E.inspect e ctx
    return first :: (← E.inspectAll ctx rest)

/-- Show a stop to the attached debugger, and get its `command`. -/
def consult (E : Engine) (link : Link) (reason : StopReason) (location : Location) (ctx : Context) :
    Eval Command := do
  if link.isAttending then
    let watches ← E.inspectAll ctx link.watch
    fun m =>
      let stop : Stop := {
        thread := ctx.thread, threadName := (m.thread ctx.thread).name, reason, location
        frames := ctx.frames, bindings := ctx.visible, watches, heap := m.heap, hits := m.hits }
      let (command, link) := link.answer
      (.ok command, { m with link := some link, stops := m.stops.push stop })
  else return .continue

/-- Go on after a stop, as the `command` says. -/
def resume (command : Command) (location : Location) (ctx : Context) : Eval Unit := do
  let root := ctx.rootOf
  let stepTo (step : StepTarget) : Eval Unit :=
    Eval.change (·.modifyThread ctx.thread (·.stepTo step))
  match command with
  | .continue => stepTo {}
  | .stepIn => stepTo { line := some location.line }
  | .stepOver => stepTo { line := some location.line, next := some root.inner.id }
  | .stepOut =>
    match root.around with
    | some caller => stepTo { line := some location.line, out := some caller.rootOf.inner.id }
    | none => stepTo {}
  | .terminate =>
    stepTo {}
    Eval.unwind (.cancelled location)

/-- Stop the thread until the debugger says how to go on. Without a debugger it just goes on. -/
def suspend (E : Engine) (reason : StopReason) (location : Location) (ctx : Context) :
    Eval Unit := do
  match ← Eval.reads (·.link) with
  | some link => resume (← E.consult link reason location ctx) location ctx
  | none => return

/-- Offer a raised value to some catchpoints; the first that takes it stops the thread. -/
def offer (E : Engine) (value : Value) (location : Location) (ctx : Context) :
    List Breakpoint → Eval Unit
  | [] => return
  | b :: rest => do
    if b.catches (← Eval.heap) value then
      Eval.change fun m => { m with breakpoints := m.breakpoints.hit b.number }
      E.suspend (.catch b.number value) location ctx
    else E.offer value location ctx rest

/-- Raise a value, after offering it to the `catchpoints`. -/
def raise {α : Type} (E : Engine) (value : Value) (location : Location) (ctx : Context) :
    Eval α := do
  let thread ← Eval.thread ctx.thread
  unless thread.isDebugging do
    E.offer value location (ctx.hold value) (← Eval.reads (·.breakpoints.catchpoints))
  throw (.exit value location)

/-- Let the debugger look at a `fatal` error. Its command has no effect. -/
def reportFatal (E : Engine) (message : String) (location : Location) (ctx : Context) :
    Eval Unit := do
  let thread ← Eval.thread ctx.thread
  unless thread.isDebugging do
    match ← Eval.reads (·.link) with
    | some link =>
      let _ ← E.consult link (.fatal message) location ctx
    | none => return

/-- Fail with a numbered error. With `exceptions` on, the number and the `message` are raised as a
value instead. -/
def fail {α : Type} (E : Engine) (code : Code) (message : String) (location : Location)
    (ctx : Context) : Eval α := do
  if E.settings.exceptions then
    E.raise (.tuple [.int code.number, .ofText message]) location ctx
  else
    E.reportFatal (code.text ++ ": " ++ message) location ctx
    throw (.fatal code message location ctx.rootOf.inner.title)

/-- Go on with the result of an operation on values, or `fail` as it did. -/
def lift {α : Type} (E : Engine) (result : Except ValueFault α) (location : Location)
    (ctx : Context) : Eval α :=
  match result with
  | .ok a => return a
  | .error fault => E.fail fault.code fault.message location ctx

/-- Go on with the result of an operation that reads the heap, or fail as it did. -/
def consultHeap {α : Type} (E : Engine) (f : Heap → Except ValueFault α) (location : Location)
    (ctx : Context) : Eval α := do
  E.lift (f (← Eval.heap)) location ctx

/-! ### Expressions of a given kind -/

def condition (E : Engine) (e : Expr) (ctx : Context) : Eval Bool := do
  let v ← E.expr e ctx
  E.consultHeap (·.boolean v) e.location (ctx.hold v)

def int (E : Engine) (e : Expr) (ctx : Context) : Eval Int := do
  let v ← E.expr e ctx
  E.consultHeap (·.integer v) e.location (ctx.hold v)

def nat (E : Engine) (e : Expr) (ctx : Context) : Eval Nat := do
  let v ← E.expr e ctx
  E.consultHeap (·.natural v) e.location (ctx.hold v)

def set (E : Engine) (e : Expr) (ctx : Context) : Eval (List Value) := do
  let v ← E.expr e ctx
  E.consultHeap (·.setItems v) e.location (ctx.hold v)

def seq (E : Engine) (e : Expr) (ctx : Context) : Eval (List Value) := do
  let v ← E.expr e ctx
  E.consultHeap (·.seqItems v) e.location (ctx.hold v)

def object (E : Engine) (e : Expr) (ctx : Context) : Eval ObjectRef := do
  let v ← E.expr e ctx
  E.consultHeap (·.objectRef v) e.location (ctx.hold v)

def exprs (E : Engine) (ctx : Context) : List Expr → Eval (List Value)
  | [] => return []
  | e :: rest => do
    let v ← E.expr e ctx
    return v :: (← E.exprs (ctx.hold v) rest)

def fields (E : Engine) (ctx : Context) : List (String × Expr) → Eval (List (String × Value))
  | [] => return []
  | (name, e) :: rest => do
    let v ← E.expr e ctx
    return (name, v) :: (← E.fields (ctx.hold v) rest)

end Engine

end Animator

import Animator.Eval.Engine

/-!
# Checks

Every expression and statement is checked before it is evaluated: the place is counted, requests to
stop or pause are obeyed, a breakpoint at the node takes effect, and a stepping thread may stop.
-/

namespace Animator

/-- Whether a thread with this step target stops at a line. -/
def StepTarget.stopsAt (step : StepTarget) (line : Nat) (ctx : Context) : Bool :=
  match step.line with
  | none => false
  | some start =>
    if line = start then false
    else
      let root := ctx.rootOf
      match step.next, step.out with
      | none, none => true
      | some next, none => !root.hasAncestor next
      | none, some out => !root.hasAncestor out
      | some next, some out => !root.hasAncestor next || !root.hasAncestor out

namespace Engine

/-- Whether a stoppoint stops, given how often it was met. A condition that fails stops too. -/
def stopsOn (E : Engine) (hits : Nat) (location : Location) (ctx : Context) :
    StopCondition → Eval Bool
  | .always => return true
  | .hits c => return c.holds hits
  | .expr e => do
    let holds := do
      let v ← E.expr e ctx
      E.consultHeap (·.boolean v) location ctx
    match ← (Eval.within .debugging ctx.thread holds).outcome with
    | .ok b => return b
    | .error _ => return true

/-- The text of what an expression gave to a tracepoint. -/
def traceText (h : Heap) : Outcome → String
  | .ok v => h.text v
  | .error halt => halt.text h

/-- The texts of the values of traced expressions. -/
def traceTexts (E : Engine) (ctx : Context) : List Expr → Eval (List String)
  | [] => return []
  | e :: rest => do
    let first ← E.inspect e ctx
    let text := traceText (← Eval.heap) first
    return text :: (← E.traceTexts ctx rest)

/-- Let a `breakpoint` take effect; true if it stopped the thread. -/
def applyBreakpoint (E : Engine) (b : Breakpoint) (location : Location) (ctx : Context) :
    Eval Bool := do
  Eval.change fun m => { m with breakpoints := m.breakpoints.hit b.number }
  match b.kind with
  | .stop c =>
    let stops ← E.stopsOn (b.hits + 1) location ctx c
    if stops then E.suspend (.breakpoint b.number) location ctx
    return stops
  | .trace exprs =>
    let texts ← E.traceTexts ctx exprs
    Eval.log ctx.thread ("trace [" ++ toString b.number ++ "] at " ++ location.text ++ ": "
      ++ ", ".intercalate texts)
    return false
  | .catch _ => return false

/-- Let the breakpoint of a node take effect, if there is one; true if it stopped the thread. -/
def meetBreakpoint (E : Engine) (node : NodeId) (location : Location) (ctx : Context) :
    Eval Bool := do
  match ← Eval.reads (·.breakpoints.at? node) with
  | some b => E.applyBreakpoint b location ctx
  | none => return false

/-- Offer the other threads a turn, or stop a thread that is stepping. -/
def takeTurn (E : Engine) (stopped : Bool) (location : Location) (ctx : Context) : Eval Unit := do
  let thread ← Eval.thread ctx.thread
  if E.settings.isRealTime then
    unless thread.isAtomic do
      Eval.changeScheduler (·.yieldPoint ctx.thread)
  else if !stopped && thread.step.stopsAt location.line ctx then
    E.suspend .step location ctx

/-- What a check does about a pending request. -/
def obey (E : Engine) (node : NodeId) (location : Location) (ctx : Context) : Interrupt → Eval Unit
  | .none => do E.takeTurn (← E.meetBreakpoint node location ctx) location ctx
  | .pause => E.suspend .pause location ctx
  | .terminate => Eval.unwind (.cancelled location)

/-- Check a node before it is evaluated. -/
def check (E : Engine) (node : NodeId) (location : Location) (ctx : Context) : Eval Unit := do
  Eval.change fun m => { m with hits := m.hits.hit location.counter }
  let thread ← Eval.thread ctx.thread
  if thread.isDebugging then return
  else if thread.stopRequested then Eval.unwind (.stopped location)
  else E.obey node location ctx (← Eval.schedule (·.takeInterrupt))

end Engine

end Animator

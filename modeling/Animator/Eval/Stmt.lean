import Animator.Eval.Assign
import Animator.Eval.Check
import Animator.Eval.Start

/-!
# Statements

What each statement does, given an engine for the statements and expressions inside it. The result
of a statement is void if its block goes on after it; a return gives any other value, at which
blocks and loops stop.
-/

namespace Animator

/-- Whether a loop that counts up or down to a bound goes on with an integer. -/
def countsOn (stop step i : Int) : Bool :=
  (0 < step && i ≤ stop) || (step < 0 && stop ≤ i)

namespace Engine

/-! ### Blocks and choices -/

/-- Declare the variables of a block, each seeing the ones before it. -/
def declare (E : Engine) : List Declaration → Context → Eval Context
  | [], ctx => return ctx
  | d :: rest, ctx => do
    E.declare rest (ctx.bind d.name (← E.newVariable d.init d.ty none d.location ctx))

/-- Execute statements up to the first that returns. -/
def sequence (E : Engine) (ctx : Context) : List Stmt → Eval Value
  | [] => return .void
  | s :: rest => do
    let v ← E.stmt s ctx
    if v.isVoid then E.sequence ctx rest else return v

/-- Execute the body with the first `match` that satisfies the predicate. -/
def firstMatch (E : Engine) (predicate : Option Expr) (body : Stmt) (location : Location)
    (ctx : Context) : List Matched → Eval Value
  | [] =>
    E.fail .letBeExhausted "let be st found no binding satisfying the predicate" location ctx
  | matched :: rest => do
    let child ← Eval.derive (holdMatches ctx rest) "let be st" location
    let child := child.bindAll matched
    let satisfied ←
      match predicate with
      | some p => E.condition p child
      | none => pure true
    if satisfied then E.stmt body child else E.firstMatch predicate body location ctx rest

/-- Execute the statement of the first `condition` that holds. -/
def firstBranch (E : Engine) (otherwise : Option Stmt) (ctx : Context) :
    List (Expr × Stmt) → Eval Value
  | [] =>
    match otherwise with
    | some s => E.stmt s ctx
    | none => return .void
  | (condition, s) :: rest => do
    if ← E.condition condition ctx then E.stmt s ctx else E.firstBranch otherwise ctx rest

/-- The first `alternative` with a pattern that matches. -/
def firstAlternative (h : Heap) (v : Value) : List CaseAlternative → Option (Matched × Stmt)
  | [] => none
  | alternative :: rest =>
    match alternative.patterns.findSome? (h.match? · v) with
    | some matched => some (matched, alternative.body)
    | none => firstAlternative h v rest

def caseStatement (E : Engine) (selector : Expr) (alternatives : List CaseAlternative)
    (others : Option Stmt) (location : Location) (ctx : Context) : Eval Value := do
  let v ← E.expr selector ctx
  let ctx := ctx.hold v
  match firstAlternative (← Eval.heap) v alternatives with
  | some (matched, body) =>
    let child ← Eval.derive ctx "cases" location
    E.stmt body (child.bindAll matched)
  | none =>
    match others with
    | some s => E.stmt s ctx
    | none => return .void

/-! ### Loops -/

/-- Execute the body for integers at equal distances, up to a bound or to the last of them that fits
in a word. -/
def countingLoop (E : Engine) (var : Name) (stop step : Int) (body : Stmt) (location : Location)
    (ctx : Context) (i : Int) : Eval Value :=
  if _hgo : countsOn stop step i then do
    let child ← Eval.derive ctx "for" location
    let v ← E.stmt body (child.bind var (.int i))
    if !v.isVoid then return v
    else if Value.inIntRange (i + step) then
      E.countingLoop var stop step body location ctx (i + step)
    else return .void
  else return .void
termination_by if 0 < step then (stop + 1 - i).toNat else (i + 1 - stop).toNat
decreasing_by
  simp only [countsOn, Bool.or_eq_true, Bool.and_eq_true, decide_eq_true_eq] at _hgo
  split <;> omega

/-- Evaluate the distance between the integers of a loop. -/
def stride (E : Engine) (step : Option Expr) (ctx : Context) : Eval Int :=
  match step with
  | some e => E.int e ctx
  | none => return 1

/-- The loop over the integers from one bound to another. -/
def forIndex (E : Engine) (var : Name) (start stop : Expr) (step : Option Expr) (body : Stmt)
    (location : Location) (ctx : Context) : Eval Value := do
  let start ← E.int start ctx
  let stop ← E.int stop ctx
  let step ← E.stride step ctx
  if step = 0 then
    E.fail .loopNeverTerminates "for loop with a step of zero would never terminate" location ctx
  else E.countingLoop var stop step body location ctx start

/-- Execute the body for each item that matches a `Pattern`. -/
def forAllItems (E : Engine) (p : Pattern) (body : Stmt) (location : Location) (ctx : Context) :
    List Value → Eval Value
  | [] => return .void
  | item :: rest => do
    match (← Eval.heap).match? p item with
    | none => E.forAllItems p body location ctx rest
    | some matched =>
      let child ← Eval.derive (ctx.holdAll (item :: rest)) "for all" location
      let v ← E.stmt body (child.bindAll matched)
      if v.isVoid then E.forAllItems p body location ctx rest else return v

/-- Execute the body for each item that a pattern or bind takes. -/
def forEachItem (E : Engine) (b : PatternBind) (body : Stmt) (location : Location) (ctx : Context) :
    List Value → Eval Value
  | [] => return .void
  | item :: rest => do
    let inner := ctx.holdAll (item :: rest)
    match ← E.bindValue b item .bindMembershipFailed location inner with
    | none => E.forEachItem b body location ctx rest
    | some matched =>
      let child ← Eval.derive inner "for" location
      let v ← E.stmt body (child.bindAll matched)
      if v.isVoid then E.forEachItem b body location ctx rest else return v

def whileLoop (E : Engine) (condition : Expr) (body : Stmt) (location : Location) (ctx : Context) :
    Nat → Eval Value
  | 0 => throw .exhausted
  | n + 1 => do
    if ← E.condition condition ctx then
      let child ← Eval.derive ctx "while" location
      let v ← E.stmt body child
      if v.isVoid then E.whileLoop condition body location ctx n else return v
    else return .void

/-! ### Exits -/

/-- Hold the value that an `Outcome` carries. -/
def holdOutcome (ctx : Context) : Outcome → Context
  | .ok v | .error (.exit v _) => ctx.hold v
  | .error _ => ctx

/-- Execute the body, then the `cleanup`, and end as the body did. A failing cleanup ends the
statement instead; cancellation and being stopped pass the cleanup over. -/
def always (E : Engine) (cleanup body : Stmt) (ctx : Context) : Eval Value := do
  match ← (E.stmt body ctx).outcome with
  | .error halt =>
    if halt.isUnwinding then throw halt
    else
      let _ ← E.stmt cleanup (holdOutcome ctx (.error halt))
      throw halt
  | .ok v =>
    let _ ← E.stmt cleanup (ctx.hold v)
    return v

/-- Execute the body, and the `handler` for an `exit` whose value the bind takes. -/
def trap (E : Engine) (b : PatternBind) (handler body : Stmt) (location : Location)
    (ctx : Context) : Eval Value := do
  match ← (E.stmt body ctx).outcome with
  | .ok v => return v
  | .error (.exit value raised) =>
    let ctx := ctx.hold value
    match ← E.bindValue b value .trapBindFailed location ctx with
    | some matched =>
      let child ← Eval.derive ctx "trap" location
      E.stmt handler (child.bindAll matched)
    | none => throw (.exit value raised)
  | .error halt => throw halt

/-- The `outcome` of the first `handler` that takes a value, if one does. -/
def firstHandler (E : Engine) (value : Value) (location : Location) (ctx : Context) :
    List TixeAlternative → Eval (Option Outcome)
  | [] => return none
  | alternative :: rest => do
    match ← E.bindValue alternative.bind value .trapBindFailed location ctx with
    | some matched =>
      let child ← Eval.derive ctx "tixe" location
      return some (← (E.stmt alternative.handler (child.bindAll matched)).outcome)
    | none => E.firstHandler value location ctx rest

/-- Handle an `exit`, and every exit that a handler ends in. -/
def handleExits (E : Engine) (alternatives : List TixeAlternative) (location : Location)
    (ctx : Context) : Nat → Value → Location → Eval Value
  | 0, _, _ => throw .exhausted
  | n + 1, value, raised => do
    match ← E.firstHandler value location (ctx.hold value) alternatives with
    | none => throw (.exit value raised)
    | some (.ok v) => return v
    | some (.error (.exit next again)) => E.handleExits alternatives location ctx n next again
    | some (.error halt) => throw halt

/-- Execute the body, and handlers for exits until none is left. -/
def tixe (E : Engine) (alternatives : List TixeAlternative) (body : Stmt) (location : Location)
    (ctx : Context) : Eval Value := do
  match ← (E.stmt body ctx).outcome with
  | .ok v => return v
  | .error (.exit value raised) => E.handleExits alternatives location ctx E.rounds value raised
  | .error halt => throw halt

/-! ### Calls -/

def callByName (E : Engine) (name : Name) (args : List Expr) (location : Location) (ctx : Context) :
    Eval Value := do
  match ← Eval.lookup ctx name with
  | none => E.fail .unresolvedCall ("operation " ++ name.display ++ " not found") location ctx
  | some callee =>
    let ctx := ctx.hold callee
    let args ← E.exprs ctx args
    E.apply ((← Eval.heap).deref callee) args location ctx

/-- Call a `member` of an object, or an operation that is given from outside. -/
def callMember (E : Engine) (o : ObjectRef) (field : Name) (args : List Value) (location : Location)
    (ctx : Context) : Eval Value := do
  let h ← Eval.heap
  match h.field o field with
  | .ok member => E.apply (h.deref member) args location ctx
  | .error _ =>
    match ← E.delegate o.className field args (some o) location ctx with
    | some v => return v
    | none => E.fail .unresolvedCall (o.text ++ " has no operation " ++ field.text) location ctx

/-- Come back to the place of a call. A thread that is stepping, and was when the call began, may
stop there again. -/
def comeBack (E : Engine) (wasStepping : Bool) (location : Location) (ctx inner : Context) :
    Eval Unit := do
  Eval.note (.returned wasStepping location ctx)
  let thread ← Eval.thread ctx.thread
  if wasStepping && thread.isStepping && !E.settings.isRealTime
      && thread.step.stopsAt location.line ctx then
    E.suspend .step location inner

/-- Evaluate the arguments, call a member of an object with them, and come back. -/
def callOn (E : Engine) (wasStepping : Bool) (o : ObjectRef) (field : Name) (args : List Expr)
    (location : Location) (ctx : Context) : Eval Value := do
  let inner := ctx.hold (.object o)
  let args ← E.exprs inner args
  let inner := if ((← Eval.heap).field o field).isOk then inner else inner.holdAll args
  let result ← E.callMember o field args location inner
  E.comeBack wasStepping location ctx (inner.hold result)
  return result

/-- Call an operation of an object. A place that counts together with that of the object is counted
once. -/
def callObject (E : Engine) (designator : Expr) (field : Name) (args : List Expr)
    (location : Location) (ctx : Context) : Eval Value := do
  let wasStepping := (← Eval.thread ctx.thread).isStepping
  let o ← E.object designator ctx
  if designator.location.sharesHits location then
    Eval.change fun m => { m with hits := m.hits.unhit location.counter }
  E.callOn wasStepping o field args location ctx

/-! ### Time -/

inductive Cost where
  | cycles
  | duration
  deriving DecidableEq, Repr

/-- The `amount` that a timed statement names, a natural within 64 bits. -/
def amount (E : Engine) (e : Expr) (location : Location) (ctx : Context) : Eval Nat := do
  let x ← Eval.within .atomic ctx.thread do
    let v ← E.expr e ctx
    E.consultHeap (·.number v) location (ctx.hold v)
  if x.isBelowZero || !x.isFinite then
    E.fail .negativeDuration
      ("time cost must be a non-negative number, got " ++ x.positional) location ctx
  else return (x.clampInto 0 (Word.size64 - 1) x.floor?).toNat

/-- Execute the body, and let the time pass that an `amount` stands for. Inside another timed
statement only the outer one takes time; a body that ends early takes none. -/
def spend (E : Engine) (cost : Cost) (amount : Nat) (body : Stmt) (ctx : Context) : Eval Value := do
  if ← Eval.reads (·.scheduler.isTimed ctx.thread) then E.stmt body ctx
  else
    let duration ←
      match cost with
      | .cycles =>
        Eval.reads fun m => m.scheduler.cyclesToDuration (m.thread ctx.thread).cpu amount
      | .duration => pure amount
    let flag (on : Bool) (m : Machine) : Machine :=
      { m with scheduler := m.scheduler.setTimed ctx.thread on }
    let v ← Eval.bracket (flag true) (flag false) (E.stmt body ctx)
    Eval.charge ctx.thread duration
    return v

def timed (E : Engine) (cost : Cost) (e : Expr) (body : Stmt) (location : Location)
    (ctx : Context) : Eval Value := do
  E.spend cost (← E.amount e location ctx) body ctx

/-! ### All statements -/

def stmtKind (E : Engine) (kind : StmtKind) (location : Location) (ctx : Context) : Eval Value := do
  match kind with
  | .assign a =>
    let v ← E.expr a.value ctx
    E.assign a.target v a.location ctx
    return .void
  | .atomic assignments =>
    E.assignAtomically assignments ctx
    return .void
  | .block dcls body =>
    let child ← Eval.derive ctx "block" location
    E.sequence (← E.declare dcls child) body
  | .letIn defs body | .defIn defs body => E.stmt body (← E.definitions defs location ctx)
  | .letBeSt binds predicate body =>
    E.firstMatch predicate body location ctx (← E.combinations binds location ctx)
  | .cond condition thenBranch elseifs elseBranch =>
    E.firstBranch elseBranch ctx ((condition, thenBranch) :: elseifs)
  | .cases selector alternatives others => E.caseStatement selector alternatives others location ctx
  | .forIndex var start stop step body => E.forIndex var start stop step body location ctx
  | .forAll pattern set body => E.forAllItems pattern body location ctx (← E.set set ctx)
  | .forPattern bind seq reverse body =>
    let items ← E.seq seq ctx
    E.forEachItem bind body location ctx (if reverse then items.reverse else items)
  | .while condition body => E.whileLoop condition body location ctx E.rounds
  | .call name args => E.callByName name args location ctx
  | .callObject designator field args => E.callObject designator field args location ctx
  | .start e =>
    let o ← E.object e ctx
    E.start o location ctx
    return .void
  | .startList e =>
    E.startAll location ctx (← E.objects e ctx)
    return .void
  | .stop e =>
    stopAll [← E.object e ctx]
    return .void
  | .stopList e =>
    stopAll (← E.objects e ctx)
    return .void
  | .cycles e body => E.timed .cycles e body location ctx
  | .duration e body => E.timed .duration e body location ctx
  | .always cleanup body => E.always cleanup body ctx
  | .trap bind handler body => E.trap bind handler body location ctx
  | .tixe alternatives body => E.tixe alternatives body location ctx
  | .exit value =>
    match value with
    | some e => E.raise (← E.expr e ctx) location ctx
    | none => E.raise .void location ctx
  | .return value =>
    match value with
    | some e =>
      let v ← E.expr e ctx
      return if v.isVoid then .voidReturn else v
    | none => return .voidReturn
  | .classInvariant clauses => return .bool (← E.invariant ctx clauses)
  | .notYetSpecified => E.unspecified location ctx
  | .skip => return .void

def evalStmt (E : Engine) (s : Stmt) (ctx : Context) : Eval Value := do
  Eval.note (.visit (.stmt s))
  E.check s.id s.location ctx
  E.stmtKind s.kind s.location ctx

end Engine

end Animator

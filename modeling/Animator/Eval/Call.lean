import Animator.Eval.Binding

/-!
# Calls

Calling operations and functions, making objects, and the operations that a model leaves
unspecified. A routine of an object runs on that object as long as the object is alive.
-/

namespace Animator

namespace Engine

/-- The object that a routine refers to, if it is still alive. -/
def living (E : Engine) (self : Option ObjectRef) (ctx : Context) : Eval (Option ObjectRef) :=
  match self with
  | none => return none
  | some ref => do
    let alive ← Eval.reads fun m =>
      m.heap.isAlive
        (fun node =>
          ctx.holds node || m.holds node || E.program.delegates.values.any (·.refersTo node)) ref
    Eval.change fun m => { m with calls := (ref, alive) :: m.calls }
    return if alive then some ref else none

/-- The frame of a routine of an object, of a class, or of a module. -/
def routineKind (self : Option ObjectRef) (className : Option String) (module : String) :
    Eval RootKind :=
  Eval.reads fun m =>
    match self with
    | some ref => .object ref
    | none =>
      match className with
      | some name =>
        if (m.globals.class? name).isSome then .static name
        else if (m.globals.state? module).isSome then .state module
        else .global
      | none => if (m.globals.state? module).isSome then .state module else .global

/-- The number of arguments has to be right. -/
def checkArity (E : Engine) (name : Name) (expected got : Nat) (location : Location)
    (ctx : Context) : Eval Unit :=
  if expected = got then return
  else
    E.fail .argumentMismatch
      (name.display ++ " expects " ++ toString expected ++ " arguments, got " ++ toString got)
      location ctx

/-- Bind parameters to arguments, converted to the parameter types. -/
def bindParams (E : Engine) (location : Location) :
    List Pattern → List Ty → List Value → Context → Eval Context
  | p :: ps, types, v :: vs, call => do
    let v ← E.consultHeap (·.convert (types.headD .unknown) v) location call
    let matched ← E.matchOrFail p v location call
    E.bindParams location ps types.tail vs (call.bindAll matched)
  | _, _, _, call => return call

def checkPre (E : Engine) (pre : Option Expr) (name : Name) (location : Location) (call : Context) :
    Eval Unit := do
  match pre with
  | none => return
  | some pre =>
    if E.settings.preChecks then
      unless ← E.condition pre call do
        E.fail .preconditionFailed ("precondition of " ++ name.display ++ " failed") location call

/-- The result of a routine, converted to the result type. -/
def resultValue (E : Engine) (v : Value) (ty : Ty) (location : Location) (call : Context) :
    Eval Value :=
  match v with
  | .void | .voidReturn => return .void
  | v =>
    match ty with
    | .void | .unknown => return v
    | ty => E.consultHeap (·.convert ty v) location (call.hold v)

/-- Whether all clauses hold, up to the first that does not. -/
def invariant (E : Engine) (ctx : Context) : List Expr → Eval Bool
  | [] => return true
  | clause :: rest => do
    if ← E.condition clause ctx then E.invariant ctx rest else return false

/-- The `invariant` of an object's class has to hold, if it is checked. -/
def checkInvariants (E : Engine) (o : ObjectRef) (location : Location) (ctx : Context) :
    Eval Unit := do
  if E.settings.invChecks then
    match ← Eval.reads (·.globals.class? o.className) with
    | none => return
    | some scope =>
      let clauses := scope.definition.invariants
      unless clauses.isEmpty do
        let frame ← Eval.frame (ctx.hold (.object o)) { kind := .object o }
          (scope.definition.name ++ " invariant") scope.definition.location
        unless ← E.invariant frame clauses do
          E.fail .invariantViolated ("instance invariant of " ++ o.text ++ " violated") location ctx

def purely {α : Type} (on : Bool) (thread : ThreadId) (x : Eval α) : Eval α :=
  if on then Eval.within .pure thread x else x

def callOperation (E : Engine) (op : OperationValue) (args : List Value) (location : Location)
    (ctx : Context) : Eval Value := do
  let d := op.definition
  E.checkArity d.name d.params.length args.length location (ctx.holdAll args)
  let self ← E.living op.self (ctx.holdAll args)
  let kind ← routineKind self op.className d.name.module
  let call ← Eval.frame ctx { kind, routine := some { name := d.name, args } } d.name.display
    d.location
  let call ← E.bindParams d.location d.params d.paramTypes args call
  E.checkPre d.pre d.name location call
  purely d.isPure ctx.thread do
    let result ← E.stmt d.body call
    unless d.isPure do
      match self with
      | some o => E.checkInvariants o location (ctx.holdAll (result :: call.inner.values))
      | none => pure ()
    E.resultValue result d.result d.location call

def callFunction (E : Engine) (f : FunctionValue) (args : List Value) (location : Location)
    (ctx : Context) : Eval Value := do
  let d := f.definition
  let inner := ctx.holdAll (.function f :: args)
  E.checkArity d.name d.params.length args.length location inner
  let self ← E.living f.self inner
  let kind ← routineKind self f.className d.name.module
  let call ← Eval.frame ctx
    { kind, captured := f.captured, routine := some { name := d.name, args } }
    d.name.display d.location
  let call := if f.captured.isSome then call.bind d.name (.function f) else call
  let call ← E.bindParams d.location d.params d.paramTypes args call
  E.checkPre d.pre d.name location call
  Eval.within .pure ctx.thread do
    let result ← E.expr d.body call
    E.resultValue result d.result d.location call

/-- The item of a sequence at an `index` that counts from one. -/
def itemAt (items : List Value) (index : Int) : Except ValueFault Value :=
  match (if 1 ≤ index then items[(index - 1).toNat]? else none) with
  | some item => .ok item
  | none => .error (.indexOutOfRange index items.length)

/-- Call a function or an operation, or `index` a sequence. -/
def apply (E : Engine) (callee : Value) (args : List Value) (location : Location) (ctx : Context) :
    Eval Value := do
  match callee with
  | .operation op => E.callOperation op args location ctx
  | .function f => E.callFunction f args location ctx
  | .seq items =>
    let inner := ctx.holdAll (callee :: args)
    match args with
    | [index] =>
      let i ← E.consultHeap (·.integer index) location inner
      E.lift (itemAt items i) location inner
    | _ => E.fail .argumentMismatch "sequence application takes exactly one index" location inner
  | other =>
    E.fail .notCallable ((← Eval.heap).text other ++ " is not callable") location
      (ctx.holdAll (other :: args))

/-! ### Unspecified operations -/

/-- Call an operation that is given from outside, if it is. -/
def delegate (E : Engine) (owner : String) (operation : Name) (args : List Value)
    (self : Option ObjectRef) (location : Location) (ctx : Context) : Eval (Option Value) := do
  let call : DelegateCall := { owner, operation, args, self, thread := ctx.thread }
  match ← Eval.reads fun m => E.program.delegates.invoke m.heap m.scheduler call with
  | none => return none
  | some (.error message) =>
    E.fail .notYetSpecified message location (ctx.holdAll (self.toList.map .object ++ args))
  | some (.ok (v, heap, scheduler)) =>
    Eval.change fun m => { m with heap, scheduler }
    return some v

/-- Run the body of a `routine` that the model leaves `unspecified`. -/
def unspecified (E : Engine) (location : Location) (ctx : Context) : Eval Value := do
  match ctx.routine? with
  | none => E.fail .notYetSpecified (ctx.owner ++ " is not yet specified") location ctx
  | some routine =>
    match ← E.delegate ctx.owner routine.name routine.args ctx.self? location ctx with
    | some v => return v
    | none =>
      E.fail .notYetSpecified (routine.name.display ++ " is not yet specified") location ctx

/-! ### Objects -/

def addOperations (o : ObjectRef) : List OperationDef → Eval Unit
  | [] => return
  | d :: rest => do
    unless d.isStatic do
      Eval.setMember o d.name
        (.operation { definition := d, className := some o.className, self := some o })
    addOperations o rest

def addFunctions (o : ObjectRef) : List FunctionDef → Eval Unit
  | [] => return
  | d :: rest => do
    Eval.setMember o d.name
      (.function
        { definition := d, captured := none, className := some o.className, self := some o })
    addFunctions o rest

/-- The initial value of a variable, converted to its type. -/
def initialValue (E : Engine) (init : Option Expr) (ty : Ty) (location : Location) (ctx : Context) :
    Eval Value := do
  match init with
  | some e =>
    let v ← E.expr e ctx
    E.consultHeap (·.convert ty v) location (ctx.hold v)
  | none => return .nil

def newVariable (E : Engine) (init : Option Expr) (ty : Ty) (owner : Option CellOwner)
    (location : Location) (ctx : Context) : Eval Value := do
  let value ← E.initialValue init ty location ctx
  Eval.newCell { value, ty, owner }

def addVariables (E : Engine) (o : ObjectRef) (ctx : Context) : List InstanceVarDef → Eval Unit
  | [] => return
  | d :: rest => do
    unless d.isStatic do
      let owner : CellOwner := { object := o.id, className := o.className, field := d.name.text }
      Eval.setMember o d.name (← E.newVariable d.init d.ty (some owner) d.location ctx)
    E.addVariables o ctx rest

/-- Whether an operation is a constructor for some arguments. -/
def isConstructor (h : Heap) (className : String) (args : List Value) (d : OperationDef) : Bool :=
  !d.isStatic && d.name.text == className && d.params.length == args.length &&
    (args.zip d.paramTypes).all fun (v, ty) => (h.convert ty v).isOk

/-- Make an object of a class that the model defines. -/
def instantiate (E : Engine) (d : ClassDef) (className : String) (args : List Value)
    (location : Location) (ctx : Context) : Eval ObjectRef := do
  let o ← Eval.newObject className
  let ctx := ctx.hold (.object o)
  addOperations o d.operations
  addFunctions o d.functions
  let init ← Eval.frame (ctx.holdAll args) { kind := .object o } (className ++ " initialisation")
    d.location
  E.addVariables o init d.instanceVars
  let h ← Eval.heap
  match (d.operations.find? (isConstructor h className args)).bind fun op =>
    h.member? o op.name with
  | some (.operation op) =>
    let _ ← E.callOperation op args location ctx
    return o
  | _ =>
    if args.isEmpty then
      E.checkInvariants o location ctx
      return o
    else
      E.fail .argumentMismatch
        ("no constructor of " ++ className ++ " accepts " ++ toString args.length ++ " arguments")
        location (ctx.holdAll args)

/-- Make an object. Processors can be made without a class of that name in the model. -/
def newObject (E : Engine) (className : String) (args : List Value) (location : Location)
    (ctx : Context) : Eval ObjectRef := do
  let undefinedClass : Eval ObjectRef :=
    E.fail .noSuchClass ("class " ++ className ++ " is not defined") location (ctx.holdAll args)
  match ← Eval.reads (·.globals.class? className) with
  | some scope => E.instantiate scope.definition className args location ctx
  | none =>
    if className == cpuClass then
      let o ← Eval.newObject cpuClass
      let constructor : Name := { module := cpuClass, text := cpuClass }
      match ← E.delegate cpuClass constructor args (some o) location ctx with
      | some _ => return o
      | none => undefinedClass
    else undefinedClass

end Engine

end Animator

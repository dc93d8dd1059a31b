import Animator.Eval.Run

/-!
# Entries

Setting up a machine for a program, and the evaluations that can be asked of it from outside. All of
them run on the main thread, in a frame that sees the globals only.
-/

namespace Animator

def mainThread : ThreadId := 1

/-- The place of everything that is asked from outside. -/
def entryLocation : Location :=
  .internal "<global>"

/-- A function of a module or class. -/
def FunctionDef.asValue (d : FunctionDef) (className : Option String) : Value :=
  .function { definition := d, captured := none, className, self := none }

/-- An operation of a module, or a static one of a class. -/
def OperationDef.asValue (d : OperationDef) (className : Option String) : Value :=
  .operation { definition := d, className, self := none }

namespace Machine

/-- Make the cells of a state record. -/
def stateFields (h : Heap) : List StateField → List (Name × CellId) × Heap
  | [] => ([], h)
  | f :: rest =>
    let (c, h) := h.newCell { value := .nil, ty := f.ty }
    let (fields, h) := stateFields h rest
    ((f.name, c) :: fields, h)

/-- Make the state records of modules. -/
def stateScopes (h : Heap) : List ModuleDef → List (String × StateScope) × Heap
  | [] => ([], h)
  | m :: rest =>
    match m.state with
    | none => stateScopes h rest
    | some state =>
      let (fields, h) := stateFields h state.fields
      let (scopes, h) := stateScopes h rest
      ((m.name, { module := m.name, fields }) :: scopes, h)

def moduleRoutines (m : ModuleDef) : List (Name × Value) :=
  m.functions.map (fun d => (d.name, d.asValue none)) ++
    m.operations.map (fun d => (d.name, d.asValue none))

def classRoutines (c : ClassDef) : List (Name × Value) :=
  c.functions.map (fun d => (d.name, d.asValue (some c.name))) ++
    (c.operations.filter (·.isStatic)).map (fun d => (d.name, d.asValue (some c.name)))

/-- The machine of a program before anything is evaluated. The heap may hold cells and objects
already. -/
def initial (P : Program) (heap : Heap) : Machine :=
  let (states, heap) := stateScopes heap P.model.modules
  let classes := P.model.classes.map fun c =>
    (c.name, { definition := c, statics := Bindings.insertAll (classRoutines c) [] : ClassScope })
  let globals : Globals := {
    values := Bindings.insertAll (P.model.modules.flatMap moduleRoutines) []
    classes := .ofList classes
    states := .ofList states }
  let scheduler := Scheduler.ofSettings P.settings.defaultHz P.settings.timeLimit
  { globals, heap, scheduler := (scheduler.attach "main" 0).2 }

end Machine

mutual

/-- The names that a `Pattern` binds, in the order of their occurrences. -/
def Pattern.names : Pattern → List Name
  | ⟨_, kind⟩ => kind.names

def PatternKind.names : PatternKind → List Name
  | .ident name => [name]
  | .ignore | .literal _ => []
  | .tuple ps | .seq ps | .record _ ps => Pattern.namesOfAll ps

def Pattern.namesOfAll : List Pattern → List Name
  | [] => []
  | p :: rest => p.names ++ Pattern.namesOfAll rest

end

/-- The names that a `definition` defines. -/
def Definition.names (d : Definition) : List Name :=
  match d.kind with
  | .value pattern _ _ => pattern.names
  | .function definition => [definition.name]

namespace Engine

/-! ### Initialisation -/

/-- Evaluate `constants`, each seeing the ones before it. -/
def constants (E : Engine) (defs : List Definition) (ctx : Context) :
    Eval (List (Name × Value)) := do
  match defs with
  | [] => return []
  | first :: _ =>
    let child ← E.definitions defs first.location ctx
    Eval.reads fun m => (defs.flatMap (·.names)).filterMap fun name =>
      (child.lookup m.globals m.heap name).map fun v => (name, v)

def define (matched : List (Name × Value)) : Eval Unit :=
  Eval.change fun m =>
    { m with globals := matched.foldl (fun g (name, v) => g.define name v) m.globals }

def defineStatic (className : String) (matched : List (Name × Value)) : Eval Unit :=
  Eval.change fun m =>
    { m with globals := matched.foldl (fun g (name, v) =>
      g.defineStatic className name v) m.globals }

def initialiseFields (E : Engine) (ctx : Context) : List StateField → List (Name × CellId) →
    Eval Unit
  | f :: fs, (_, c) :: cells => do
    match f.init with
    | some init =>
      let v ← E.expr init ctx
      E.updateHeap (Heap.assigning c v) init.location (ctx.hold v)
    | none => pure ()
    E.initialiseFields ctx fs cells
  | _, _ => return

def initialiseModule (E : Engine) (root : Context) (m : ModuleDef) : Eval Unit := do
  define (← E.constants m.values root)
  match m.state, ← Eval.reads (·.globals.state? m.name) with
  | some state, some scope =>
    let ctx ← Eval.frame root { kind := .state m.name } state.name state.location
    E.initialiseFields ctx state.fields scope.fields
  | _, _ => return

def initialiseStatics (E : Engine) (className : String) (ctx : Context) :
    List InstanceVarDef → Eval Unit
  | [] => return
  | d :: rest => do
    if d.isStatic then
      defineStatic className [(d.name, ← E.newVariable d.init d.ty none d.location ctx)]
    E.initialiseStatics className ctx rest

def initialiseClass (E : Engine) (root : Context) (c : ClassDef) : Eval Unit := do
  let ctx ← Eval.frame root { kind := .static c.name } c.name c.location
  defineStatic c.name (← E.constants c.values ctx)
  E.initialiseStatics c.name ctx c.instanceVars

def each {α : Type} (f : α → Eval Unit) : List α → Eval Unit
  | [] => return
  | a :: rest => do
    f a
    each f rest

/-- Initialise the modules in the order of their definitions, then the classes in the order of their
names. -/
def initialise (E : Engine) : Eval Unit := do
  let root ← Eval.entry .global "initialisation" entryLocation mainThread
  each (E.initialiseModule root) E.program.model.modules
  each (fun (_, scope) =>
    E.initialiseClass root scope.definition) (← Eval.reads (·.globals.classes))

/-! ### Evaluations from outside -/

/-- The name of the first operation, or else function, of a name and a number of parameters. -/
def routineName (name : String) (arity : Nat) (operations : List OperationDef)
    (functions : List FunctionDef) : Option Name :=
  let operation := operations.find? fun d => d.name.text == name && d.params.length == arity
  let function := functions.find? fun d => d.name.text == name && d.params.length == arity
  (operation.map (·.name)).or (function.map (·.name))

/-- The `routine` of a module, or else the static routine of a class. -/
def routine (model : Model) (g : Globals) (owner name : String) (arity : Nat) : Option Value :=
  match model.module? owner with
  | some m => (routineName name arity m.operations m.functions).bind g.lookup
  | none =>
    (g.class? owner).bind fun scope =>
      let operations := scope.definition.operations.filter (·.isStatic)
      (routineName name arity operations scope.definition.functions).bind fun n =>
        scope.statics.get? n

/-- A call of something that does not exist. -/
def unresolved (message : String) (ctx : Context) : Eval Value :=
  throw (.fatal .unresolvedCall message ctx.inner.location ctx.inner.title)

/-- Call a `routine` of a module, or a static routine of a class. -/
def call (E : Engine) (owner name : String) (args : List Value) : Eval Value := do
  let root ← Eval.entry .global "entry" entryLocation mainThread
  match ← Eval.reads fun m => routine E.program.model m.globals owner name args.length with
  | some callee => E.apply callee args entryLocation root
  | none => unresolved (owner ++ "`" ++ name ++ " not found") root

/-- Whether a value can be called with a number of arguments. -/
def takesArguments (arity : Nat) : Value → Bool
  | .operation op => op.definition.params.length == arity
  | .function f => f.definition.params.length == arity
  | _ => false

/-- Call an operation of an object. -/
def callMethod (E : Engine) (o : ObjectRef) (name : String) (args : List Value) : Eval Value := do
  let root ← Eval.entry .global "entry" entryLocation mainThread
  let members := (← Eval.heap).members o
  match members.find? fun (n, v) => n.text == name && takesArguments args.length v with
  | some (_, member) => E.apply member args entryLocation root
  | none => unresolved (o.text ++ " has no operation " ++ name) root

def newInstance (E : Engine) (className : String) (args : List Value) : Eval Value := do
  let root ← Eval.entry .global "entry" entryLocation mainThread
  return .object (← E.newObject className args entryLocation root)

def evaluate (E : Engine) (e : Expr) : Eval Value := do
  E.expr e (← Eval.entry .global "evaluate" entryLocation mainThread)

def execute (E : Engine) (s : Stmt) : Eval Value := do
  E.stmt s (← Eval.entry .global "execute" entryLocation mainThread)

end Engine

end Animator

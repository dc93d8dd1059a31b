import Animator.Debug.Breakpoint
import Animator.Debug.Stop
import Animator.Delegate
import Animator.Heap.Update
import Animator.Settings
import Animator.Tree.Walk

/-!
# Machines

A `Program` is what an evaluation never changes, a `Machine` is what it does change, and `Eval` is
an evaluation: a machine goes in, and an outcome and a machine come out. A machine is kept however
an evaluation ends.

A machine also remembers what has happened to it, the objects whose routines were called, and what
has been assigned. No evaluation looks at this; it is there to say in what order things happen.
-/

namespace Animator

/-- What stays the same during an evaluation. -/
structure Program where
  model : Model
  settings : Settings := {}
  delegates : Delegates := []
  deriving Inhabited

/-- A line of the log. -/
structure LogRecord where
  time : Nat
  thread : ThreadId
  text : String
  deriving DecidableEq, Repr, Inhabited

/-- What a machine held at some moment. -/
structure Snapshot where
  heap : Heap
  hits : Hits
  scheduler : Scheduler
  log : Array LogRecord
  deriving Inhabited

/-- Something that happens during an evaluation. -/
inductive Event where
  /-- A statement or an expression is reached. -/
  | visit (node : Node)
  /-- A call of an operation of an object comes back to the place of the call; whether the thread
  was stepping when the call began. -/
  | returned (stepping : Bool) (location : Location) (ctx : Context)
  /-- The evaluation is cancelled or stopped, and what the machine holds at that moment. -/
  | unwound (halt : Halt) (state : Snapshot)

/-- A store into a cell that an assignment has made. -/
structure Change where
  thread : ThreadId
  /-- Whether the thread is in a pure section. -/
  isPure : Bool
  /-- Whether the cell is that of a member on the way, and not the one that the target begins with.
  -/
  isNested : Bool
  cell : CellId
  heap : Heap
  deriving Inhabited

/-- What an evaluation `changes`. -/
structure Machine where
  globals : Globals := {}
  heap : Heap := {}
  hits : Hits := {}
  scheduler : Scheduler := {}
  breakpoints : BreakpointTable := {}
  link : Option Link := none
  stops : Array Stop := #[]
  log : Array LogRecord := #[]
  nextContext : ContextId := 1
  kept : List Value := []
  history : List Event := []
  /-- The objects whose routines were called, the latest first, and whether they were alive. -/
  calls : List (ObjectRef × Bool) := []
  changes : List Change := []
  deriving Inhabited

namespace Machine

/-- The values that are held apart from cells, objects and contexts. -/
def values (m : Machine) : List Value :=
  let globals := m.globals.values.map (·.2)
  let statics := m.globals.classes.flatMap fun (_, s) => s.statics.map (·.2)
  let states := m.globals.states.flatMap fun (_, s) => s.fields.map fun (_, c) => Value.updatable c
  let records := m.scheduler.records.flatMap fun r =>
    let object := r.object.toList.map Value.object
    let outcome :=
      match r.outcome with
      | some (.ok v) | some (.error (.exit v _)) => [v]
      | _ => []
    object ++ outcome
  m.kept ++ (globals ++ (statics ++ (states ++ records)))

/-- Whether a value that is held apart from cells, objects and contexts refers to a node. -/
def holds (m : Machine) (node : HeapNode) : Bool :=
  m.values.any (·.refersTo node)

def thread (m : Machine) (id : ThreadId) : Thread :=
  match m.scheduler.record? id with
  | some r => r.thread
  | none => { id, name := "" }

/-- What the machine holds now. -/
def snapshot (m : Machine) : Snapshot :=
  { heap := m.heap, hits := m.hits, scheduler := m.scheduler, log := m.log }

/-- A `store` that a thread makes now, of which the cell and the heap after it are known. -/
def changeBy (m : Machine) (id : ThreadId) (isNested : Bool) (store : CellId × Heap) : Change :=
  { thread := id, isPure := (m.thread id).isPure, isNested, cell := store.1, heap := store.2 }

/-- The stores of an assignment that is about to be made. -/
def changesOf (m : Machine) (id : ThreadId) (c : CellId) (path : List Segment) (v : Value) :
    List Change :=
  let content := m.heap.content c
  (Heap.storesWithin v path content m.heap).map (m.changeBy id true)
    ++ (Heap.storing c (Heap.replaceAt v path content m.heap)).map (m.changeBy id false)

def modifyThread (m : Machine) (id : ThreadId) (f : Thread → Thread) : Machine :=
  { m with scheduler := m.scheduler.modify id fun r => { r with thread := f r.thread } }

end Machine

/-- An evaluation. -/
abbrev Eval := ExceptT Halt (StateM Machine)

namespace Eval

variable {α : Type}

def start (x : Eval α) (m : Machine) : Except Halt α × Machine :=
  x m

/-- The part of an evaluation that has no effect on the machine. -/
def reads (f : Machine → α) : Eval α :=
  fun m => (.ok (f m), m)

/-- A `change` of the machine. -/
def change (f : Machine → Machine) : Eval Unit :=
  fun m => (.ok (), f m)

def note (event : Event) : Eval Unit :=
  change fun m => { m with history := event :: m.history }

/-- End the evaluation early, past the handlers and cleanups of the model. -/
def unwind (halt : Halt) : Eval α :=
  fun m => (.error halt, { m with history := .unwound halt m.snapshot :: m.history })

/-- Change the machine before and after an evaluation, however that ends. -/
def bracket (before after : Machine → Machine) (x : Eval α) : Eval α :=
  fun m =>
    let (result, m) := x (before m)
    (result, after m)

/-- Evaluate inside a `Section` of a thread. -/
def within (s : Section) (id : ThreadId) (x : Eval α) : Eval α :=
  bracket (·.modifyThread id (·.enter s)) (·.modifyThread id (·.leave s)) x

/-- Evaluate, and give the `outcome` instead of ending with it. An evaluation that was cut off stays
so. -/
def outcome (x : Eval α) : Eval (Except Halt α) :=
  fun m =>
    match x m with
    | (.error .exhausted, m) => (.error .exhausted, m)
    | (result, m) => (.ok result, m)

/-- Evaluate what a thread does, and give the outcome; a thread that has died has none. -/
def outcomeOn (id : ThreadId) (x : Eval α) : Eval (Option (Except Halt α)) :=
  fun m =>
    match x m with
    | (.error .exhausted, m) =>
      if m.scheduler.isDead id then (.ok none, m) else (.error .exhausted, m)
    | (result, m) => (.ok (some result), m)

def heap : Eval Heap :=
  reads (·.heap)

def thread (id : ThreadId) : Eval Thread :=
  reads (·.thread id)

def changeScheduler (f : Scheduler → Scheduler) : Eval Unit :=
  change fun m => { m with scheduler := f m.scheduler }

/-- Take a value out of the `scheduler`. -/
def schedule (f : Scheduler → α × Scheduler) : Eval α :=
  fun m =>
    let (a, scheduler) := f m.scheduler
    (.ok a, { m with scheduler })

def newCell (cell : Cell) : Eval Value :=
  fun m =>
    let (c, heap) := m.heap.newCell cell
    (.ok (.updatable c), { m with heap })

def newObject (className : String) : Eval ObjectRef :=
  fun m =>
    let (ref, heap) := m.heap.newObject className
    (.ok ref, { m with heap })

def setMember (o : ObjectRef) (name : Name) (value : Value) : Eval Unit :=
  change fun m => { m with heap := m.heap.setMember o name value }

def log (id : ThreadId) (text : String) : Eval Unit :=
  change fun m =>
    { m with log := m.log.push { time := m.scheduler.time id, thread := id, text } }

/-- Remember the stores of an assignment. -/
def noteChanges (id : ThreadId) (c : CellId) (path : List Segment) (v : Value) : Eval Unit :=
  change fun m => { m with changes := (m.changesOf id c path v).reverse ++ m.changes }

/-- Let time pass on a thread. If its clock cannot count that, the thread dies. -/
def charge (id : ThreadId) (duration : Nat) : Eval Unit := do
  let fits ← reads (·.scheduler.fits id duration)
  changeScheduler (·.charge id duration)
  unless fits do throw .exhausted

/-- A number for a new scope. -/
def freshContext : Eval ContextId :=
  fun m => (.ok m.nextContext, { m with nextContext := m.nextContext + 1 })

def lookup (ctx : Context) (name : Name) : Eval (Option Value) :=
  reads fun m => ctx.lookup m.globals m.heap name

/-- A context inside another one. -/
def derive (ctx : Context) (title : String) (location : Location) : Eval Context := do
  let id ← freshContext
  return { ctx with inner := { id, title, location }, outer := ctx.scopes }

/-- The `frame` of a call. -/
def frame (caller : Context) (root : Root) (title : String) (location : Location) :
    Eval Context := do
  let id ← freshContext
  return { caller with inner := { id, title, location, root := some root }, outer := caller.scopes }

/-- The outermost frame of an evaluation on a thread. -/
def entry (kind : RootKind) (title : String) (location : Location) (thread : ThreadId) :
    Eval Context := do
  let id ← freshContext
  return { inner := { id, title, location, root := some { kind } }, thread }

end Eval

end Animator

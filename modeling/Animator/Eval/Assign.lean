import Animator.Eval.Binding

/-!
# Assignments

The target of an assignment is a cell and a path into its content. Going through an object leads to
the cell of one of its variables.
-/

namespace Animator

namespace Engine

def updateHeap {α : Type} (E : Engine) (x : Heap.Update α) (location : Location) (ctx : Context) :
    Eval α := do
  let result ← fun m =>
    let (result, heap) := x m.heap
    (.ok result, { m with heap })
  E.lift result location ctx

/-- The cell and the path that a `Designator` stands for. -/
def target (E : Engine) (location : Location) (ctx : Context) :
    Designator → Eval (CellId × List Segment)
  | .name name => do
    match ← Eval.lookup ctx name with
    | some v => return (← E.lift v.cell location ctx, [])
    | none => E.fail .nameNotFound ("name " ++ name.display ++ " not in scope") location ctx
  | .field object field => do
    let (c, path) ← E.target location ctx object
    let h ← Eval.heap
    match path, h.deref (h.content c) with
    | [], .object ref =>
      let inner := ctx.holdAll [.object ref, .updatable c]
      return (← E.lift (h.field ref field >>= Value.cell) location inner, [])
    | path, _ => return (c, path ++ [.field field])
  | .index seq index => do
    let (c, path) ← E.target location ctx seq
    let i ← E.int index (ctx.hold (.updatable c))
    return (c, path ++ [.index i])

/-- Log a change of an instance variable, if that is wanted. -/
def logChange (E : Engine) (c : CellId) (ctx : Context) : Eval Unit := do
  let thread ← Eval.thread ctx.thread
  if E.settings.logInstanceChanges && !thread.isPure then
    match (← Eval.heap).change? c with
    | some text => Eval.log ctx.thread text
    | none => return

/-- Store a value where a path into a cell leads, and log the change. -/
def write (E : Engine) (c : CellId) (path : List Segment) (v : Value) (location : Location)
    (inner ctx : Context) : Eval Unit := do
  Eval.noteChanges ctx.thread c path v
  E.updateHeap (Heap.storeAt c path v) location inner
  E.logChange c ctx

def assign (E : Engine) (d : Designator) (v : Value) (location : Location) (ctx : Context) :
    Eval Unit := do
  let (c, path) ← E.target location (ctx.hold v) d
  let inner := ctx.hold (.updatable c)
  E.write c path v location (if path.isEmpty then inner.hold v else inner) ctx

/-- Assign values that have been evaluated already. -/
def assignAll (E : Engine) (ctx : Context) : List Assignment → List Value → Eval Unit
  | a :: as, v :: vs => do
    E.assign a.target v a.location (ctx.holdAll vs)
    E.assignAll ctx as vs
  | _, _ => return

/-- Evaluate all right-hand sides, then make all assignments. -/
def assignAtomically (E : Engine) (assignments : List Assignment) (ctx : Context) : Eval Unit :=
  Eval.within .atomic ctx.thread do
    let values ← E.exprs ctx (assignments.map (·.value))
    E.assignAll ctx assignments values

end Engine

end Animator

import Animator.Coverage
import Animator.Eval.Join

/-!
# Reports

Values, outcomes, stops and threads as documents, for a front end that shows them. A real is given
by its bits, so that nothing is lost, and a cell by its content.
-/

namespace Animator

/-- The `bits` of a double in hexadecimal. -/
def Binary64.toJson (x : Binary64) : Json :=
  let digits := Nat.toDigits 16 x.bits.toNat
  .str (if x.isNaN then "nan" else .ofList (List.replicate (16 - digits.length) '0' ++ digits))

namespace Value

mutual

/-- The document of a value, given the documents of cells. -/
def toJsonWith (cell : CellId → Json) : Value → Json
  | .void => .str "void"
  | .voidReturn => .str "void_return"
  | .nil => .str "nil"
  | .bool b => .tagged "bool" (.bool b)
  | .int n => .tagged "int" (.int n)
  | .real x => .tagged "real" x.toJson
  | .char c => .tagged "char" (.str (.singleton c))
  | .quote tag => .tagged "quote" (.str tag)
  | .token inner => .tagged "token" (inner.toJsonWith cell)
  | .seq items =>
    match items, chars? items with
    | _ :: _, some chars => .tagged "text" (.str (.ofList chars))
    | _, _ => .tagged "seq" (.arr (toJsonsWith cell items))
  | .set items => .tagged "set" (.arr (toJsonsWith cell items))
  | .tuple items => .tagged "tuple" (.arr (toJsonsWith cell items))
  | .record tag fields =>
    .taggedObj "record" [("tag", .str tag), ("fields", .arr (fieldJsonsWith cell fields))]
  | .object ref => .taggedObj "object" [("class", .str ref.className), ("id", .ofNat ref.id)]
  | .function func => .tagged "function" (.str func.definition.name.display)
  | .operation op => .tagged "operation" (.str op.definition.name.display)
  | .updatable c => .tagged "cell" (cell c)

def toJsonsWith (cell : CellId → Json) : List Value → List Json
  | [] => []
  | v :: rest => v.toJsonWith cell :: toJsonsWith cell rest

def fieldJsonsWith (cell : CellId → Json) : List (String × Value) → List Json
  | [] => []
  | (name, v) :: rest => .arr [.str name, v.toJsonWith cell] :: fieldJsonsWith cell rest

end

end Value

namespace Heap

/-- The document of the `content` of a cell, down to a depth. -/
def cellJson (h : Heap) : Nat → CellId → Json
  | 0, _ => .null
  | n + 1, c => (h.content c).toJsonWith (h.cellJson n)

def toJson (h : Heap) (v : Value) : Json :=
  v.toJsonWith (h.cellJson (h.cells.size + 1))

def bindingsJson (h : Heap) (b : List (Name × Value)) : Json :=
  .arr (b.map fun (name, v) => .arr [.str name.display, h.toJson v])

/-- The document of a value, with its text. -/
def resultJson (h : Heap) (v : Value) : Json :=
  .obj [("ok", h.toJson v), ("text", .str (h.text v))]

end Heap

def ValueFault.toJson (f : ValueFault) : Json :=
  .obj [("error", .str "value"), ("code", .ofNat f.code.number), ("message", .str f.message)]

/-- The sort of an early end, and what belongs to it. -/
def Halt.parts (h : Heap) : Halt → String × List (String × Json)
  | .exit v _ => ("exit", [("value", h.toJson v)])
  | .fatal code _ _ _ =>
    ("runtime", [("code", .ofNat code.number), ("category", .str code.category.text)])
  | .cancelled _ => ("cancelled", [])
  | .stopped _ => ("stopped", [])
  | .exhausted => ("exhausted", [])

def Halt.toJson (h : Heap) (halt : Halt) : Json :=
  let (kind, more) := halt.parts h
  .obj (("error", .str kind) :: ("message", .str (halt.text h)) ::
    ("at", .str halt.location.text) :: more)

def Outcome.toJson (h : Heap) : Outcome → Json
  | .ok v => h.resultJson v
  | .error halt => halt.toJson h

def Stop.toJson (s : Stop) : Json :=
  let watch : Outcome → Json
    | .ok v => s.heap.toJson v
    | .error halt => .tagged "error" (.str (halt.text s.heap))
  .obj [
    ("thread", .ofNat s.thread),
    ("kind", .str s.reason.kind),
    ("reason", .str (s.reason.text s.heap)),
    ("at", .str s.location.text),
    ("frames", .arr (s.frames.map fun f => .str (f.title ++ " @ " ++ f.location.text))),
    ("bindings", s.heap.bindingsJson s.bindings),
    ("watch", .arr (s.watches.map watch))]

def Thread.statusJson (t : Thread) : Json :=
  .obj [
    ("atomic", .bool t.isAtomic),
    ("pure", .bool t.isPure),
    ("debugging", .bool t.isDebugging),
    ("stop", .bool t.stopRequested),
    ("stepping", .bool t.isStepping),
    ("line", .ofOption (t.step.line.map .ofNat))]

def Scheduler.threadsJson (s : Scheduler) : Json :=
  .arr (s.records.map fun r => .obj [
    ("id", .ofNat r.thread.id),
    ("name", .str r.thread.name),
    ("object", .ofOption (r.object.map fun o => .ofNat o.id)),
    ("cpu", .ofNat r.thread.cpu),
    ("time", .ofNat r.clock),
    ("yields", .ofNat r.yields),
    ("running", .bool r.running)])

def ThreadOutcome.toJson (h : Heap) (t : ThreadOutcome) : Json :=
  .obj [("id", .ofNat t.id), ("name", .str t.name), ("result", Outcome.toJson h t.result)]

def LogRecord.toJson (r : LogRecord) : Json :=
  .arr [.ofNat r.time, .ofNat r.thread, .str r.text]

def Breakpoint.toJson (b : Breakpoint) : Json :=
  .arr [.ofNat b.number, .str b.text, .ofNat b.hits]

end Animator

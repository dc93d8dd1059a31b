import Animator.Heap.Basic

/-!
# Taking values apart

Each function delivers the content of a value of the wanted kind, and otherwise the fault that
names the kind and shows the value.
-/

namespace Animator

namespace Heap

/-- A value of another kind was wanted. -/
def wrong {α : Type} (h : Heap) (expected : String) (v : Value) : Except ValueFault α :=
  .error (.wrongType expected (h.text v))

def boolean (h : Heap) (v : Value) : Except ValueFault Bool :=
  match h.deref v with
  | .bool b => .ok b
  | other => h.wrong "bool" other

/-- The integer an integral real stands for, the nearest bound when it does not fit. -/
def integerOfReal? (x : Binary64) : Option Int :=
  if x.isIntegral then some (x.clampInto Word.minInt Word.maxInt x.truncate?) else none

/-- An `integer`; an integral `real` counts as one. -/
def integer (h : Heap) (v : Value) : Except ValueFault Int :=
  match h.deref v with
  | .int n => .ok n
  | .real x =>
    match integerOfReal? x with
    | some n => .ok n
    | none => h.wrong "int" (.real x)
  | other => h.wrong "int" other

/-- An `integer` that is not negative. -/
def natural (h : Heap) (v : Value) : Except ValueFault Nat := do
  let n ← h.integer v
  if 0 ≤ n then return n.toNat else h.wrong "nat" (h.deref v)

def number (h : Heap) (v : Value) : Except ValueFault Binary64 :=
  match h.deref v with
  | .int n => .ok (.ofInt n)
  | .real x => .ok x
  | other => h.wrong "real" other

def setItems (h : Heap) (v : Value) : Except ValueFault (List Value) :=
  match h.deref v with
  | .set items => .ok items
  | other => h.wrong "set" other

def seqItems (h : Heap) (v : Value) : Except ValueFault (List Value) :=
  match h.deref v with
  | .seq items => .ok items
  | other => h.wrong "seq" other

def tupleItems (h : Heap) (v : Value) : Except ValueFault (List Value) :=
  match h.deref v with
  | .tuple items => .ok items
  | other => h.wrong "tuple" other

def objectRef (h : Heap) (v : Value) : Except ValueFault ObjectRef :=
  match h.deref v with
  | .object ref => .ok ref
  | other => h.wrong "object" other

/-- The text of a sequence of characters. -/
def textOf? (h : Heap) (v : Value) : Option String :=
  match h.deref v with
  | .seq items => (Value.chars? items).map String.ofList
  | _ => none

/-- A field of a `record` or a member of an object. -/
def select (h : Heap) (v : Value) (name : Name) : Except ValueFault Value :=
  match h.deref v with
  | .record _ fields =>
    match fields.find? (·.1 == name.text) with
    | some (_, value) => .ok value
    | none => .error (.noSuchField name.text)
  | .object ref => h.field ref name
  | other => h.wrong "record or object" other

/-- Whether a set has a member equal to a value. -/
def contains (h : Heap) (set item : Value) : Except ValueFault Bool := do
  let items ← h.setItems set
  return Value.search (fun entry => h.compare entry item) items

end Heap

/-- The address of a cell. -/
def Value.cell : Value → Except ValueFault CellId
  | .updatable c => .ok c
  | _ => .error .notUpdatable

end Animator

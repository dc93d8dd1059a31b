import Animator.Fault
import Animator.Value.Order
import Animator.Value.Text

/-!
# Cells and objects

The heap holds the cells (block variables, state fields, instance and static variables) and the
objects. Reading a value through the heap replaces a cell by its content.
-/

namespace Animator

/-- Which instance variable a cell stores. -/
structure CellOwner where
  object : ObjectId
  className : String
  field : String
  deriving DecidableEq, Repr, Inhabited

/-- A typed slot. -/
structure Cell where
  value : Value
  /-- The type that assigned values are converted to. -/
  ty : Ty
  /-- The instance variable the cell stores, if it does. -/
  owner : Option CellOwner := none
  deriving Inhabited

/-- An instance of a class. -/
structure Object where
  className : String
  members : Bindings := []
  /-- The processor it is deployed on; zero for none. -/
  cpu : Nat := 0
  thread : Option Nat := none
  deriving Inhabited

/-- All cells and objects. -/
structure Heap where
  cells : Array Cell := #[]
  objects : Array Object := #[]
  deriving Inhabited

namespace Heap

def content (h : Heap) (c : CellId) : Value :=
  match h.cells[c]? with
  | some cell => cell.value
  | none => .nil

def newCell (h : Heap) (cell : Cell) : CellId × Heap :=
  (h.cells.size, { h with cells := h.cells.push cell })

def store (h : Heap) (c : CellId) (value : Value) : Heap :=
  { h with cells := h.cells.modify c fun cell => { cell with value } }

def newObject (h : Heap) (className : String) : ObjectRef × Heap :=
  (⟨h.objects.size + 1, className⟩, { h with objects := h.objects.push { className } })

def object? (h : Heap) (id : ObjectId) : Option Object :=
  match id with
  | 0 => none
  | n + 1 => h.objects[n]?

def modifyObject (h : Heap) (id : ObjectId) (f : Object → Object) : Heap :=
  match id with
  | 0 => h
  | n + 1 => { h with objects := h.objects.modify n f }

def setMember (h : Heap) (o : ObjectRef) (name : Name) (value : Value) : Heap :=
  h.modifyObject o.id fun object => { object with members := object.members.insert name value }

def members (h : Heap) (o : ObjectRef) : Bindings :=
  match h.object? o.id with
  | some object => object.members
  | none => []

/-- The member with exactly this name. -/
def member? (h : Heap) (o : ObjectRef) (name : Name) : Option Value :=
  (h.members o).get? name

/-- The member with this name, or, when the name has no `signature`, the only one with its text. -/
def field (h : Heap) (o : ObjectRef) (name : Name) : Except ValueFault Value :=
  match h.member? o name with
  | some v => .ok v
  | none =>
    match (h.members o).filter fun (n, _) => n.text == name.text && name.signature.isNone with
    | [(_, v)] => .ok v
    | _ => .error (.noSuchField name.text)

def cpu? (h : Heap) (o : ObjectRef) : Option Nat :=
  match h.object? o.id with
  | some object => if object.cpu = 0 then none else some object.cpu
  | none => none

def thread? (h : Heap) (o : ObjectRef) : Option Nat :=
  (h.object? o.id).bind (·.thread)

def deploy (h : Heap) (o : ObjectRef) (cpu : Nat) : Heap :=
  h.modifyObject o.id fun object => { object with cpu }

def setThread (h : Heap) (o : ObjectRef) (thread : Option Nat) : Heap :=
  h.modifyObject o.id fun object => { object with thread }

/-! ### Reading through cells -/

/-- Strip up to a number of cells from around a value. -/
def strip (h : Heap) : Nat → Value → Value
  | n + 1, .updatable c => h.strip n (h.content c)
  | _, v => v

/-- The value without the cells around it. No chain of cells is longer than the heap. -/
def deref (h : Heap) (v : Value) : Value :=
  h.strip (h.cells.size + 1) v

/-- The `content` of a cell with the cells in it resolved, down to a depth. -/
def resolveCell (h : Heap) : Nat → CellId → Value
  | 0, c => .updatable c
  | n + 1, c => (h.content c).mapCells (h.resolveCell n)

/-- The value with every cell in it replaced by its content. -/
def resolve (h : Heap) (v : Value) : Value :=
  v.mapCells (h.resolveCell (h.cells.size + 1))

/-- The text of the `content` of a cell, with cells in it shown down to a depth. -/
def cellText (h : Heap) : Nat → CellId → String
  | 0, _ => "..."
  | n + 1, c => (h.content c).textWith (h.cellText n)

def text (h : Heap) (v : Value) : String :=
  v.textWith (h.cellText (h.cells.size + 1))

/-- The kind and the text of a value. -/
def debugText (h : Heap) (v : Value) : String :=
  v.kindName ++ "(" ++ h.text v ++ ")"

/-- The content and the type of a cell. -/
def cellDebugText (h : Heap) (c : CellId) : String :=
  match h.cells[c]? with
  | some cell => "Cell(" ++ h.text cell.value ++ ": " ++ cell.ty.text ++ ")"
  | none => "Cell()"

/-- The order of values, cells standing for their contents. -/
def compare (h : Heap) (a b : Value) : Ordering :=
  (h.resolve a).compare (h.resolve b)

def equal (h : Heap) (a b : Value) : Bool :=
  h.compare a b == .eq

def mkSet (h : Heap) (items : List Value) : Value :=
  .set (Value.members h.compare (items.map h.deref))

end Heap

end Animator

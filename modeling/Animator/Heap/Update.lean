import Animator.Heap.Conversion

/-!
# Updates

A path leads into the content of a cell. What it leads to can be replaced: records and sequences are
replaced by changed copies, and the members of objects are cells that are assigned to.
-/

namespace Animator

/-- One step of a path into a value. -/
inductive Segment where
  | field (name : Name)
  | index (i : Int)
  deriving Inhabited

namespace Heap

/-- An operation on values that may change cells, also if it fails in the end. -/
abbrev Update := ExceptT ValueFault (StateM Heap)

def replaceField (name : String) (v : Value) : List (String × Value) → List (String × Value)
  | [] => []
  | (n, old) :: rest => if n == name then (n, v) :: rest else (n, old) :: replaceField name v rest

def assigning (c : CellId) (v : Value) : Update Unit := do
  match (← get).assign c v with
  | .ok h => set h
  | .error fault => throw fault

/-- The value that results from replacing what a path leads to. -/
def replaceAt (v : Value) : List Segment → Value → Update Value
  | [], _ => return v
  | .field name :: rest, current => do
    let h ← get
    match h.deref current with
    | .record tag fields =>
      match fields.find? (·.1 == name.text) with
      | some (_, old) => return .record tag (replaceField name.text (← replaceAt v rest old) fields)
      | none => throw (.noSuchField name.text)
    | .object ref =>
      let c ← liftExcept (h.field ref name >>= Value.cell)
      let updated ← replaceAt v rest (h.content c)
      assigning c updated
      return .object ref
    | other => throw (.wrongType "record, object or sequence" (h.text other))
  | .index i :: rest, current => do
    let h ← get
    match h.deref current with
    | .seq items =>
      match (if 1 ≤ i then items[(i - 1).toNat]? else none) with
      | some old => return .seq (items.set (i - 1).toNat (← replaceAt v rest old))
      | none => throw (.indexOutOfRange i items.length)
    | other => throw (.wrongType "record, object or sequence" (h.text other))
where
  /-- The result of an operation that changes nothing. -/
  liftExcept {α : Type} : Except ValueFault α → Update α
    | .ok a => return a
    | .error fault => throw fault

/-- Store a value where a path into a cell leads. -/
def storeAt (c : CellId) (path : List Segment) (v : Value) : Update Unit := do
  match path with
  | [] => assigning c v
  | path =>
    let h ← get
    let updated ← replaceAt v path (h.content c)
    assigning c updated

/-- The store that a cell takes part in when it is given a result, and the heap after that. A
failure is not stored, and neither is a value that the cell does not take. -/
def storing (c : CellId) : Except ValueFault Value × Heap → List (CellId × Heap)
  | (.ok v, h) =>
    match h.assign c v with
    | .ok h' => [(c, h')]
    | .error _ => []
  | (.error _, _) => []

/-- The members of objects that are assigned to when what a path leads to is replaced, in the order
of these assignments, with the heap after each of them. -/
def storesWithin (v : Value) : List Segment → Value → Heap → List (CellId × Heap)
  | [], _, _ => []
  | .field name :: rest, current, h =>
    match h.deref current with
    | .record _ fields =>
      match fields.find? (·.1 == name.text) with
      | some (_, old) => storesWithin v rest old h
      | none => []
    | .object ref =>
      match h.field ref name >>= Value.cell with
      | .ok c => storesWithin v rest (h.content c) h ++ storing c (replaceAt v rest (h.content c) h)
      | .error _ => []
    | _ => []
  | .index i :: rest, current, h =>
    match h.deref current with
    | .seq items =>
      match (if 1 ≤ i then items[(i - 1).toNat]? else none) with
      | some old => storesWithin v rest old h
      | none => []
    | _ => []

/-- What is said of the `content` of a cell that has changed, if the cell is an instance variable.
-/
def change? (h : Heap) (c : CellId) : Option String :=
  (h.cells[c]?.bind (·.owner)).map fun owner =>
    "instance variable " ++ owner.className ++ "`" ++ owner.field ++ " of #" ++
      toString owner.object
      ++ " changed to " ++ h.text (h.content c)

end Heap

end Animator

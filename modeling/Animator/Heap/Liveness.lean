import Animator.Heap.Basic

/-!
# Live objects

An object lives as long as something refers to it: a value held outside the heap, or a cell or an
object that lives itself. A routine's reference to its own object does not count. Objects that refer
to each other in a circle stay alive together.

The search goes backwards from the object: what refers to it, what refers to that, and so on. The
object lives if this meets something held from outside, or if it never comes to an end.
-/

namespace Animator

/-- Something that can be referred to. -/
inductive HeapNode where
  | cell (c : CellId)
  | object (o : ObjectId)
  deriving DecidableEq, Repr

namespace Value

mutual

def references : Value → List HeapNode
  | .token inner => inner.references
  | .seq items | .set items | .tuple items => referencesOfAll items
  | .record _ fields => referencesOfFields fields
  | .object ref => [.object ref.id]
  | .function func => referencesOfFunction func
  | .updatable c => [.cell c]
  | _ => []

def referencesOfAll : List Value → List HeapNode
  | [] => []
  | v :: rest => v.references ++ referencesOfAll rest

def referencesOfFields : List (String × Value) → List HeapNode
  | [] => []
  | (_, v) :: rest => v.references ++ referencesOfFields rest

/-- What a function has brought with it. -/
def referencesOfFunction : FunctionValue → List HeapNode
  | ⟨_, captured, _, _⟩ => referencesOfCaptured captured

/-- What the `bindings` that a function has brought with it refer to. -/
def referencesOfCaptured : Option (List (Name × Value)) → List HeapNode
  | none => []
  | some bindings => referencesOfBindings bindings

def referencesOfBindings : List (Name × Value) → List HeapNode
  | [] => []
  | (_, v) :: rest => v.references ++ referencesOfBindings rest

end

def refersTo (node : HeapNode) (v : Value) : Bool :=
  v.references.contains node

end Value

namespace Heap

/-- The cells that refer to one of some nodes. -/
def referringCells (h : Heap) (targets : List HeapNode) : List HeapNode :=
  (List.range h.cells.size).filterMap fun c =>
    if (h.content c).references.any (targets.contains ·) then some (.cell c) else none

/-- The objects that refer to one of some nodes. -/
def referringObjects (h : Heap) (targets : List HeapNode) : List HeapNode :=
  (List.range h.objects.size).filterMap fun i =>
    match h.objects[i]? with
    | some object =>
      if (Value.referencesOfBindings object.members).any (targets.contains ·) then
        some (.object (i + 1))
      else none
    | none => none

/-- Whether going backwards from some nodes meets one that is held, or takes more than a number of
steps. -/
def reachedFrom (h : Heap) (isHeld : HeapNode → Bool) : Nat → List HeapNode → Bool
  | 0, layer => !layer.isEmpty
  | n + 1, layer =>
    !layer.isEmpty &&
      (layer.any isHeld ||
        h.reachedFrom isHeld n (h.referringCells layer ++ h.referringObjects layer))

/-- Whether an object lives, given which nodes are held outside the heap. -/
def isAlive (h : Heap) (isHeld : HeapNode → Bool) (o : ObjectRef) : Bool :=
  h.reachedFrom isHeld (h.cells.size + h.objects.size + 1) [.object o.id]

end Heap

end Animator

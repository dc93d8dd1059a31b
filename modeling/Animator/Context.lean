import Animator.Globals
import Animator.Heap.Liveness
import Animator.Thread.Basic

/-!
# Contexts

A context is a chain of scopes, the innermost first. A root scope begins a frame: a call, the body
of a thread, or the entry of an evaluation. Names are looked up along the chain as far as the
nearest root, then in what the root adds, then in the globals, and never in the caller's scopes.
-/

namespace Animator

/-- What a root scope adds before the globals. -/
inductive RootKind where
  | global
  /-- The `static` members of a class. -/
  | static (className : String)
  /-- The members of an object, and the static members of its class. -/
  | object (ref : ObjectRef)
  /-- The fields of a module state. -/
  | state (module : String)
  deriving DecidableEq, Repr, Inhabited

/-- The `Routine` that a frame runs. -/
structure Routine where
  name : Name
  args : List Value
  deriving Inhabited

/-- What makes a scope a `Root`. -/
structure Root where
  kind : RootKind
  /-- The `Bindings` that a local function brought from where it was defined. -/
  captured : Option Bindings := none
  routine : Option Routine := none
  deriving Inhabited

/-- One level of names. -/
structure Scope where
  id : ContextId
  title : String
  location : Location
  bindings : Bindings := []
  root : Option Root := none
  deriving Inhabited

/-- A chain of scopes on a thread. -/
structure Context where
  inner : Scope
  outer : List Scope := []
  thread : ThreadId
  /-- Values that evaluations in progress hold apart from any name. -/
  held : List Value := []
  deriving Inhabited

/-- One line of a call stack. -/
structure Frame where
  title : String
  location : Location
  deriving DecidableEq, Repr, Inhabited

/-- What a `Root` finds beyond the bindings of its frame. -/
def Root.lookup (r : Root) (g : Globals) (h : Heap) (name : Name) : Option Value :=
  let captured := r.captured.bind fun b => b.get? name
  let overlay :=
    match r.kind with
    | .global => none
    | .static className => g.static? className name
    | .object ref => (h.member? ref name).or (g.static? ref.className name)
    | .state module => (g.state? module).bind fun s => s.lookup name
  (captured.or overlay).or (g.lookup name)

namespace Scope

def lookup (g : Globals) (h : Heap) (name : Name) : List Scope → Option Value
  | [] => g.lookup name
  | s :: rest =>
    match s.bindings.get? name with
    | some v => some v
    | none =>
      match s.root with
      | some root => root.lookup g h name
      | none => lookup g h name rest

/-- The part of a chain from its nearest `root` on, or its outermost `Scope`. -/
def fromRoot (s : Scope) : List Scope → Scope × List Scope
  | [] => (s, [])
  | next :: rest => if s.root.isSome then (s, next :: rest) else fromRoot next rest

/-- Add `Bindings` that are not there yet. -/
def addMissing (found more : Bindings) : Bindings :=
  more.foldl (fun found (name, v) =>
    if (found.get? name).isSome then found else found.insert name v) found

/-- The `bindings` along a chain as far as the nearest `root`, inner ones first. -/
def visible (found : Bindings) : List Scope → Bindings
  | [] => found
  | s :: rest =>
    let found := addMissing found s.bindings
    match s.root with
    | some root => addMissing found (root.captured.getD [])
    | none => visible found rest

/-- The values that a `Scope` keeps alive. -/
def values (s : Scope) : List Value :=
  let ofRoot :=
    match s.root with
    | none => []
    | some root =>
      let ofKind :=
        match root.kind with
        | .object ref => [Value.object ref]
        | _ => []
      let args := (root.routine.map (·.args)).getD []
      ofKind ++ ((root.captured.getD []).map (·.2) ++ args)
  s.bindings.map (·.2) ++ ofRoot

end Scope

namespace Context

def scopes (c : Context) : List Scope :=
  c.inner :: c.outer

def bind (c : Context) (name : Name) (value : Value) : Context :=
  { c with inner := { c.inner with bindings := c.inner.bindings.insert name value } }

def bindAll (c : Context) (matched : List (Name × Value)) : Context :=
  { c with inner := { c.inner with bindings := c.inner.bindings.insertAll matched } }

/-- Keep a value alive while something else is evaluated. -/
def hold (c : Context) (value : Value) : Context :=
  { c with held := value :: c.held }

def holdAll (c : Context) (values : List Value) : Context :=
  { c with held := values ++ c.held }

def lookup (c : Context) (g : Globals) (h : Heap) (name : Name) : Option Value :=
  Scope.lookup g h name c.scopes

/-- The context of the nearest root. -/
def rootOf (c : Context) : Context :=
  let (inner, outer) := c.inner.fromRoot c.outer
  { c with inner, outer }

/-- The context around the innermost scope. -/
def around (c : Context) : Option Context :=
  match c.outer with
  | [] => none
  | inner :: outer => some { c with inner, outer }

def root? (c : Context) : Option Root :=
  c.rootOf.inner.root

/-- The object that the frame runs on. -/
def self? (c : Context) : Option ObjectRef :=
  match c.root? with
  | some { kind := .object ref, .. } => some ref
  | _ => none

/-- The `routine` that the frame runs. -/
def routine? (c : Context) : Option Routine :=
  c.root?.bind (·.routine)

/-- Whether a number is that of a scope around the innermost one. -/
def hasAncestor (c : Context) (id : ContextId) : Bool :=
  c.outer.any (·.id == id)

def depth (c : Context) : Nat :=
  c.scopes.length

/-- The call stack, the innermost `Frame` first. -/
def frames (c : Context) : List Frame :=
  (c.scopes.filter (·.root.isSome)).map fun s => ⟨s.title, s.location⟩

/-- The `Bindings` that are `visible` in the frame. -/
def visible (c : Context) : Bindings :=
  Scope.visible [] c.scopes

/-- The class or module whose code is running. -/
def owner (c : Context) : String :=
  match c.root?.map Root.kind with
  | some (.object ref) => ref.className
  | some (.static className) => className
  | some (.state module) => module
  | _ => (c.routine?.map (·.name.module)).getD ""

/-- Whether a scope or an evaluation in progress refers to a node. -/
def holds (c : Context) (node : HeapNode) : Bool :=
  c.held.any (·.refersTo node) || c.scopes.any (·.values.any (·.refersTo node))

end Context

end Animator

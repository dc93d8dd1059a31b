import Animator.Heap.Extract

/-!
# Breakpoints

A breakpoint stops at a node, writes to the log there, or catches raised values anywhere. The table
numbers breakpoints from one, and has at most one for each node.
-/

namespace Animator

/-- A test on the number of hits. -/
inductive HitCondition where
  | eq (n : Nat)
  | ge (n : Nat)
  | gt (n : Nat)
  | mod (n : Nat)
  deriving DecidableEq, Repr, Inhabited

namespace HitCondition

/-- Whether the test accepts a number of `hits`. -/
def holds (c : HitCondition) (hits : Nat) : Bool :=
  match c with
  | .eq n => hits == n
  | .ge n => n ≤ hits
  | .gt n => n < hits
  | .mod n => 0 < n && hits % n == 0

def text : HitCondition → String
  | .eq n => "= " ++ toString n
  | .ge n => ">= " ++ toString n
  | .gt n => "> " ++ toString n
  | .mod n => "mod " ++ toString n

end HitCondition

/-- When a stoppoint stops. -/
inductive StopCondition where
  | always
  | hits (condition : HitCondition)
  /-- When an expression is true at the node. -/
  | expr (condition : Expr)
  deriving Inhabited

/-- What a breakpoint does. -/
inductive BreakpointKind where
  | stop (condition : StopCondition)
  /-- Log the values of expressions. -/
  | trace (exprs : List Expr)
  /-- Stop at raised values: those of a class or with a text, or all. -/
  | catch (filter : Option String)
  deriving Inhabited

structure Breakpoint where
  number : Nat
  /-- The node it is attached to and the place of that node; none for catchpoints. -/
  target : Option (NodeId × Location)
  kind : BreakpointKind
  hits : Nat := 0
  deriving Inhabited

namespace Breakpoint

def node? (b : Breakpoint) : Option NodeId :=
  b.target.map (·.1)

/-- Whether it `catches` a raised value. -/
def catches (b : Breakpoint) (h : Heap) (value : Value) : Bool :=
  match b.kind with
  | .catch none => true
  | .catch (some filter) =>
    match h.deref value with
    | .object ref => ref.className == filter
    | .quote tag => tag == filter || h.text (.quote tag) == filter
    | other => h.text other == filter || h.textOf? other == some filter
  | _ => false

/-- Count a hit of the `Breakpoint` of a number. -/
def countHit (b : Breakpoint) (number : Nat) : Breakpoint :=
  if b.number == number then { b with hits := b.hits + 1 } else b

def text (b : Breakpoint) : String :=
  let place :=
    match b.target with
    | some (_, l) => l.text
    | none => "any location"
  let number := "[" ++ toString b.number ++ "]"
  match b.kind with
  | .stop .always => "break " ++ number ++ " at " ++ place
  | .stop (.hits c) => "break " ++ number ++ " at " ++ place ++ " when hits " ++ c.text
  | .stop (.expr _) => "break " ++ number ++ " at " ++ place ++ " when <condition>"
  | .trace exprs =>
    "trace " ++ number ++ " at " ++ place ++ " (" ++ toString exprs.length ++ " expressions)"
  | .catch (some filter) => "catch " ++ number ++ " " ++ filter
  | .catch none => "catch " ++ number ++ " any"

end Breakpoint

structure BreakpointTable where
  /-- The last number that was given. -/
  count : Nat := 0
  /-- Those that are attached to nodes, with the nodes as keys. -/
  points : List Breakpoint := []
  catchpoints : List Breakpoint := []
  deriving Inhabited

namespace BreakpointTable

def nextNumber (t : BreakpointTable) : Nat :=
  (t.count + 1) % Word.size32

/-- Attach a `Breakpoint` to a node, replacing the one that is there. -/
def attach (t : BreakpointTable) (node : NodeId) (location : Location) (kind : BreakpointKind) :
    Nat × BreakpointTable :=
  let b : Breakpoint := { number := t.nextNumber, target := some (node, location), kind }
  let others := t.points.filter (·.node? != some node)
  (b.number, { t with count := b.number, points := others ++ [b] })

def setStop (t : BreakpointTable) (node : NodeId) (location : Location) (c : StopCondition) :
    Nat × BreakpointTable :=
  t.attach node location (.stop c)

def setTrace (t : BreakpointTable) (node : NodeId) (location : Location) (exprs : List Expr) :
    Nat × BreakpointTable :=
  t.attach node location (.trace exprs)

def setCatch (t : BreakpointTable) (filter : Option String) : Nat × BreakpointTable :=
  let b : Breakpoint := { number := t.nextNumber, target := none, kind := .catch filter }
  (b.number, { t with count := b.number, catchpoints := t.catchpoints ++ [b] })

/-- Remove a breakpoint; false if there is none of that number. A catchpoint is looked for only if
no node has a breakpoint of that number. -/
def clear (t : BreakpointTable) (number : Nat) : Bool × BreakpointTable :=
  match t.points.find? (·.number == number) with
  | some b => (true, { t with points := t.points.filter (·.node? != b.node?) })
  | none =>
    let others := t.catchpoints.filter (·.number != number)
    (others.length != t.catchpoints.length, { t with catchpoints := others })

def at? (t : BreakpointTable) (node : NodeId) : Option Breakpoint :=
  t.points.find? (·.node? == some node)

/-- Those that are set now. -/
def entries (t : BreakpointTable) : List Breakpoint :=
  t.points ++ t.catchpoints

/-- Those that are set now, in the order of their numbers. -/
def list (t : BreakpointTable) : List Breakpoint :=
  t.entries.mergeSort fun a b => a.number ≤ b.number

/-- Count that a breakpoint was met. -/
def hit (t : BreakpointTable) (number : Nat) : BreakpointTable :=
  { t with
    points := t.points.map (·.countHit number)
    catchpoints := t.catchpoints.map (·.countHit number) }

def text (t : BreakpointTable) : String :=
  "DebugControl \x7b points: " ++ toString t.points.length ++ ", catchpoints: "
    ++ toString t.catchpoints.length ++ " \x7d"

end BreakpointTable

end Animator

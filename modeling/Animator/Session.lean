import Animator.Coverage
import Animator.Eval.Entry
import Animator.Eval.Join

/-!
# Sessions

A session is a program with a machine: it evaluates what it is asked to, and it can be debugged.
-/

namespace Animator

/-- A program and the state of its execution. -/
structure Session where
  program : Program
  machine : Machine
  deriving Inhabited

namespace Session

/-- The `bound` on evaluations, which no execution in practice comes near. -/
def bound : Nat := 1000000000000000000

def run {α : Type} (s : Session) (x : Engine → Eval α) : Except Halt α × Session :=
  let (result, machine) := x (s.program.engine bound) s.machine
  (result, { s with machine })

def modify (s : Session) (f : Machine → Machine) : Session :=
  { s with machine := f s.machine }

/-- Hold the value of an `Outcome` from outside. -/
def keep (s : Session) : Outcome → Session
  | .ok v | .error (.exit v _) => s.modify fun m => { m with kept := v :: m.kept }
  | .error _ => s

/-- Begin a `Session`: `initialise` the program. The heap may hold cells and objects already, and
some values may be held from outside. -/
def create (program : Program) (heap : Heap) (kept : List Value) : Except Halt Unit × Session :=
  Session.run { program, machine := { Machine.initial program heap with kept } } (·.initialise)

/-- Attach a breakpoint to a node, if there is one. -/
def attach (s : Session) (place : Option (NodeId × Location)) (kind : BreakpointKind) :
    Option Nat × Session :=
  match place with
  | none => (none, s)
  | some (node, location) =>
    let (number, breakpoints) := s.machine.breakpoints.attach node location kind
    (some number, s.modify ({ · with breakpoints }))

def statementAt (s : Session) (file : String) (line : Nat) : Option (NodeId × Location) :=
  (s.program.model.statement? file line).map fun stmt => (stmt.id, stmt.location)

def expressionAt (s : Session) (file : String) (line : Nat) : Option (NodeId × Location) :=
  (s.program.model.expression? file line).map fun e => (e.id, e.location)

def breakAt (s : Session) (file : String) (line : Nat) (c : StopCondition) : Option Nat × Session :=
  s.attach (s.statementAt file line) (.stop c)

def breakAtExpr (s : Session) (file : String) (line : Nat) (c : StopCondition) :
    Option Nat × Session :=
  s.attach (s.expressionAt file line) (.stop c)

def traceAt (s : Session) (file : String) (line : Nat) (exprs : List Expr) : Option Nat × Session :=
  s.attach (s.statementAt file line) (.trace exprs)

def catchValues (s : Session) (filter : Option String) : Nat × Session :=
  let (number, breakpoints) := s.machine.breakpoints.setCatch filter
  (number, s.modify ({ · with breakpoints }))

def clear (s : Session) (number : Nat) : Bool × Session :=
  let (found, breakpoints) := s.machine.breakpoints.clear number
  (found, s.modify ({ · with breakpoints }))

/-- Attach a debugger, or detach it. -/
def setLink (s : Session) (link : Option Link) : Session :=
  s.modify ({ · with link })

/-- Take the recorded stops. -/
def takeStops (s : Session) : List Stop × Session :=
  (s.machine.stops.toList, s.modify ({ · with stops := #[] }))

def interrupt (s : Session) (level : Interrupt) : Session :=
  s.modify fun m => { m with scheduler := { m.scheduler with interrupt := level } }

/-- Evaluate something under a debugger that is there for this evaluation only, and take the stops
that it saw. -/
def attended {α : Type} (s : Session) (link : Link) (x : Engine → Eval α) :
    Except Halt α × List Stop × Session :=
  let before := s.machine.stops
  let (result, s) := (s.modify ({ · with link := some link, stops := #[] })).run x
  let (stops, s) := s.takeStops
  (result, stops, s.modify ({ · with link := none, stops := before }))

def coverage (s : Session) : Coverage :=
  .collect s.program.model s.machine.hits

end Session

end Animator

import Animator.Heap.Basic

/-!
# Global names

Constants and routines of modules, static members of classes, and the state records of modules.
-/

namespace Animator

/-- Entries by name, in the order of the names. -/
abbrev Registry (α : Type) := List (String × α)

namespace Registry

variable {α : Type}

def get? (r : Registry α) (name : String) : Option α :=
  (r.find? (·.1 == name)).map (·.2)

/-- Add an entry, replacing what the name stood for. -/
def insert (name : String) (entry : α) : Registry α → Registry α
  | [] => [(name, entry)]
  | (n, e) :: rest =>
    match Ord.compare name n with
    | .lt => (name, entry) :: (n, e) :: rest
    | .eq => (name, entry) :: rest
    | .gt => (n, e) :: insert name entry rest

def modify (name : String) (f : α → α) (r : Registry α) : Registry α :=
  r.map fun (n, e) => if n == name then (n, f e) else (n, e)

/-- Add several entries; of two with one name the later one stays. -/
def ofList (entries : List (String × α)) : Registry α :=
  entries.foldl (fun r (name, entry) => r.insert name entry) []

end Registry

structure ClassScope where
  definition : ClassDef
  statics : Bindings := []
  deriving Inhabited

structure StateScope where
  module : String
  fields : List (Name × CellId)
  deriving Inhabited

/-- The cell of a field of a state record. -/
def StateScope.lookup (s : StateScope) (name : Name) : Option Value :=
  (s.fields.find? (·.1 == name)).map fun (_, cell) => .updatable cell

/-- All global names. -/
structure Globals where
  values : Bindings := []
  classes : Registry ClassScope := []
  /-- The states of the modules that have one. -/
  states : Registry StateScope := []
  deriving Inhabited

namespace Globals

def class? (g : Globals) (name : String) : Option ClassScope :=
  g.classes.get? name

def state? (g : Globals) (module : String) : Option StateScope :=
  g.states.get? module

def define (g : Globals) (name : Name) (value : Value) : Globals :=
  { g with values := g.values.insert name value }

def defineStatic (g : Globals) (className : String) (name : Name) (value : Value) : Globals :=
  { g with
    classes := g.classes.modify className fun s =>
      { s with statics := s.statics.insert name value } }

def static? (g : Globals) (className : String) (name : Name) : Option Value :=
  (g.class? className).bind fun s => s.statics.get? name

/-- A name of a module, or else a static member of the class that qualifies it. -/
def lookup (g : Globals) (name : Name) : Option Value :=
  (g.values.get? name).or (g.static? name.module name)

end Globals

end Animator

import Animator.Tree.Stmt

/-!
# Models

A model is a list of modules and a list of classes.
-/

namespace Animator

structure OperationDef where
  name : Name
  params : List Pattern
  /-- The parameter types; parameters without one take any value. -/
  paramTypes : List Ty
  result : Ty
  body : Stmt
  pre : Option Expr
  /-- Whether it belongs to the class rather than to an object. -/
  isStatic : Bool
  /-- Whether it promises to leave the state alone. -/
  isPure : Bool
  location : Location
  deriving Inhabited

structure StateField where
  name : Name
  ty : Ty
  init : Option Expr
  deriving Inhabited

structure StateDef where
  name : String
  fields : List StateField
  location : Location
  deriving Inhabited

structure ModuleDef where
  name : String
  location : Location
  state : Option StateDef
  values : List Definition
  functions : List FunctionDef
  operations : List OperationDef
  deriving Inhabited

structure InstanceVarDef where
  name : Name
  ty : Ty
  init : Option Expr
  /-- Whether there is one for the class rather than one for each object. -/
  isStatic : Bool
  location : Location
  deriving Inhabited

/-- What the thread of an object does. -/
inductive ThreadDef where
  | plain (body : Stmt)
  /-- Run an operation once per period. -/
  | periodic (period jitter delay offset : Expr) (operation : Name)
  /-- Run an operation once per minimal delay. -/
  | sporadic (minDelay maxDelay offset : Expr) (operation : Name)
  deriving Inhabited

structure ClassDef where
  name : String
  location : Location
  instanceVars : List InstanceVarDef
  values : List Definition
  functions : List FunctionDef
  operations : List OperationDef
  invariants : List Expr
  thread : Option ThreadDef
  deriving Inhabited

structure Model where
  modules : List ModuleDef := []
  classes : List ClassDef := []
  deriving Inhabited

namespace Model

def class? (m : Model) (name : String) : Option ClassDef :=
  m.classes.find? (·.name == name)

def module? (m : Model) (name : String) : Option ModuleDef :=
  m.modules.find? (·.name == name)

end Model

end Animator

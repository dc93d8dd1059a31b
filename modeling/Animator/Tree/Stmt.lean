import Animator.Tree.Expr

/-!
# Statements

The executable tree of a statement, of assignment targets, and of block declarations.
-/

namespace Animator

inductive Designator where
  | name (name : Name)
  | field (object : Designator) (field : Name)
  | index (seq : Designator) (index : Expr)
  deriving Inhabited

structure Assignment where
  target : Designator
  value : Expr
  location : Location
  deriving Inhabited

structure Declaration where
  name : Name
  ty : Ty
  init : Option Expr
  location : Location
  deriving Inhabited

mutual

structure Stmt where
  id : NodeId
  location : Location
  kind : StmtKind

/-- What a statement does. -/
inductive StmtKind where
  | assign (assignment : Assignment)
  /-- All right-hand sides first, then all assignments. -/
  | atomic (assignments : List Assignment)
  | block (dcls : List Declaration) (body : List Stmt)
  | letIn (defs : List Definition) (body : Stmt)
  | defIn (defs : List Definition) (body : Stmt)
  | letBeSt (binds : List Bind) (predicate : Option Expr) (body : Stmt)
  | cond (condition : Expr) (thenBranch : Stmt) (elseifs : List (Expr × Stmt))
      (elseBranch : Option Stmt)
  | cases (selector : Expr) (alternatives : List CaseAlternative) (others : Option Stmt)
  | forIndex (var : Name) (start stop : Expr) (step : Option Expr) (body : Stmt)
  | forAll (pattern : Pattern) (set : Expr) (body : Stmt)
  | forPattern (bind : PatternBind) (seq : Expr) (reverse : Bool) (body : Stmt)
  | while (condition : Expr) (body : Stmt)
  | call (name : Name) (args : List Expr)
  | callObject (designator : Expr) (field : Name) (args : List Expr)
  | start (object : Expr)
  | startList (objects : Expr)
  | stop (object : Expr)
  | stopList (objects : Expr)
  | cycles (amount : Expr) (body : Stmt)
  | duration (amount : Expr) (body : Stmt)
  /-- The `cleanup` follows the body, however the body ends. -/
  | always (cleanup body : Stmt)
  | trap (bind : PatternBind) (handler body : Stmt)
  | tixe (alternatives : List TixeAlternative) (body : Stmt)
  | exit (value : Option Expr)
  | return (value : Option Expr)
  | classInvariant (clauses : List Expr)
  | notYetSpecified
  | skip

structure CaseAlternative where
  patterns : List Pattern
  body : Stmt

/-- One `handler` of a recursive trap. -/
structure TixeAlternative where
  bind : PatternBind
  handler : Stmt

end

instance : Inhabited Stmt := ⟨⟨default, default, .skip⟩⟩
instance : Inhabited CaseAlternative := ⟨⟨[], default⟩⟩
instance : Inhabited TixeAlternative := ⟨⟨default, default⟩⟩

end Animator

import Animator.Binary64.Basic
import Animator.Location
import Animator.Tree.Name

/-!
# Patterns and expressions

The executable tree of an expression. Every node carries its location and the number that
breakpoints attach to.
-/

namespace Animator

inductive Literal where
  | nil
  | bool (value : Bool)
  | int (value : Int)
  | real (value : Binary64)
  | char (value : Char)
  | text (value : String)
  | quote (tag : String)
  deriving DecidableEq, Inhabited

mutual

structure Pattern where
  location : Location
  kind : PatternKind

/-- What a `Pattern` matches. -/
inductive PatternKind where
  | ident (name : Name)
  | ignore
  | literal (value : Literal)
  | tuple (items : List Pattern)
  | record (tag : String) (fields : List Pattern)
  | seq (items : List Pattern)

end

inductive UnaryOp where
  | neg
  | not
  | abs
  | floor
  | card
  | len
  | elems
  | inds
  | hd
  | tl
  deriving DecidableEq, Inhabited

inductive BinaryOp where
  | add
  | sub
  | mul
  | div
  | intDiv
  | rem
  | mod
  | lt
  | le
  | gt
  | ge
  | eq
  | ne
  | and
  | or
  | implies
  | inSet
  | notInSet
  | union
  | inter
  | difference
  | subset
  | concat
  deriving DecidableEq, Inhabited

mutual

structure Expr where
  id : NodeId
  location : Location
  kind : ExprKind

/-- What an expression computes. -/
inductive ExprKind where
  | literal (value : Literal)
  | name (name : Name)
  /-- The object whose operation is running. -/
  | selfRef
  /-- The virtual time of the evaluating thread. -/
  | time
  | field (object : Expr) (field : Name)
  /-- Application of a function or operation, or indexing of a sequence. -/
  | apply (root : Expr) (args : List Expr)
  | unary (op : UnaryOp) (operand : Expr)
  | binary (left : Expr) (op : BinaryOp) (right : Expr)
  | cond (condition thenBranch elseBranch : Expr)
  | letIn (defs : List Definition) (body : Expr)
  | setEnum (items : List Expr)
  | setRange (low high : Expr)
  | seqEnum (items : List Expr)
  | tuple (items : List Expr)
  | mkRecord (tag : String) (fields : List (String × Expr))
  | new (className : String) (args : List Expr)
  | existsIn (binds : List Bind) (predicate : Expr)
  | forAll (binds : List Bind) (predicate : Expr)

/-- A `pattern` with the values it ranges over. -/
inductive Bind where
  | set (pattern : Pattern) (set : Expr)
  | seq (pattern : Pattern) (seq : Expr)
  | type (pattern : Pattern) (ty : Ty)

structure Definition where
  location : Location
  kind : DefinitionKind

/-- What a definition defines. -/
inductive DefinitionKind where
  | value (pattern : Pattern) (ty : Option Ty) (expr : Expr)
  | function (def_ : FunctionDef)

structure FunctionDef where
  name : Name
  params : List Pattern
  /-- The parameter types; parameters without one take any value. -/
  paramTypes : List Ty
  result : Ty
  body : Expr
  pre : Option Expr
  location : Location

end

instance : Inhabited Pattern := ⟨⟨default, .ignore⟩⟩
instance : Inhabited Expr := ⟨⟨default, default, .selfRef⟩⟩
instance : Inhabited Bind := ⟨.type default default⟩
instance : Inhabited Definition := ⟨⟨default, .value default none default⟩⟩
instance : Inhabited FunctionDef := ⟨⟨default, [], [], default, default, none, default⟩⟩

def Bind.pattern : Bind → Pattern
  | .set p _ => p
  | .seq p _ => p
  | .type p _ => p

/-- A bare `pattern`, or a `bind` that also restricts the value. -/
inductive PatternBind where
  | pattern (pattern : Pattern)
  | bind (bind : Bind)
  deriving Inhabited

end Animator

import Animator.Eval.Call
import Animator.Eval.Check
import Animator.Heap.Operator

/-!
# Expressions

What each expression computes, given an engine for the expressions inside it. The value of an
expression is never a cell.
-/

namespace Animator

/-- The most members that a set range may have. -/
def rangeLimit : Int := 1048576

def integersFrom (low : Int) (count : Nat) : List Value :=
  (List.range count).map fun (i : Nat) => .int (low + i)

namespace Engine

/-- Whether some match makes a predicate come out as wanted. -/
def anyMatch (E : Engine) (predicate : Expr) (wanted : Bool) (location : Location) (ctx : Context) :
    List Matched → Eval Bool
  | [] => return false
  | matched :: rest => do
    let child ← Eval.derive (holdMatches ctx rest) "quantifier" location
    if (← E.condition predicate (child.bindAll matched)) == wanted then return true
    else E.anyMatch predicate wanted location ctx rest

/-- Whether some binding makes a predicate come out as wanted. -/
def anyBinding (E : Engine) (binds : List Bind) (predicate : Expr) (wanted : Bool)
    (location : Location) (ctx : Context) : Eval Bool := do
  E.anyMatch predicate wanted location ctx (← E.combinations binds location ctx)

/-- Operators on two operands. The logical ones evaluate the second operand only if it matters. -/
def binary (E : Engine) (left : Expr) (op : BinaryOp) (right : Expr) (location : Location)
    (ctx : Context) : Eval Value := do
  match op with
  | .and =>
    if ← E.condition left ctx then return .bool (← E.condition right ctx) else return .bool false
  | .or =>
    if ← E.condition left ctx then return .bool true else return .bool (← E.condition right ctx)
  | .implies =>
    if ← E.condition left ctx then return .bool (← E.condition right ctx) else return .bool true
  | op =>
    let l ← E.expr left ctx
    let r ← E.expr right (ctx.hold l)
    E.consultHeap (·.binary op l r) location (ctx.holdAll [l, r])

/-- The set of the integers between two bounds. -/
def range (E : Engine) (low high : Expr) (location : Location) (ctx : Context) : Eval Value := do
  let low ← E.int low ctx
  let high ← E.int high ctx
  let size := high - low + 1
  if rangeLimit < size then
    E.fail .rangeTooLarge
      ("set range \x7b" ++ toString low ++ ", ..., " ++ toString high ++ "\x7d has " ++
        toString size
        ++ " elements, limit is " ++ toString rangeLimit)
      location ctx
  else return (← Eval.heap).mkSet (integersFrom low size.toNat)

def exprKind (E : Engine) (kind : ExprKind) (location : Location) (ctx : Context) : Eval Value := do
  match kind with
  | .literal value => return .ofLiteral value
  | .name name =>
    match ← Eval.lookup ctx name with
    | some v => return (← Eval.heap).deref v
    | none => E.fail .nameNotFound ("name " ++ name.display ++ " not in scope") location ctx
  | .selfRef =>
    match ctx.self? with
    | some ref => return .object ref
    | none => E.fail .nameNotFound "self used outside an object" location ctx
  | .time => return .ofTime (← Eval.reads fun m => m.scheduler.time ctx.thread)
  | .field object field =>
    let v ← E.expr object ctx
    let member ← E.consultHeap (·.select v field) location (ctx.hold v)
    return (← Eval.heap).deref member
  | .apply root args =>
    let callee ← E.expr root ctx
    let args ← E.exprs (ctx.hold callee) args
    E.apply callee args location ctx
  | .unary op operand =>
    let v ← E.expr operand ctx
    E.consultHeap (·.unary op v) location (ctx.hold v)
  | .binary left op right => E.binary left op right location ctx
  | .cond condition thenBranch elseBranch =>
    if ← E.condition condition ctx then E.expr thenBranch ctx else E.expr elseBranch ctx
  | .letIn defs body => E.expr body (← E.definitions defs location ctx)
  | .setEnum items =>
    let items ← E.exprs ctx items
    return (← Eval.heap).mkSet items
  | .setRange low high => E.range low high location ctx
  | .seqEnum items => return .seq (← E.exprs ctx items)
  | .tuple items => return .tuple (← E.exprs ctx items)
  | .mkRecord tag fields => return .record tag (← E.fields ctx fields)
  | .new className args =>
    let args ← E.exprs ctx args
    return .object (← E.newObject className args location ctx)
  | .existsIn binds predicate => return .bool (← E.anyBinding binds predicate true location ctx)
  | .forAll binds predicate => return .bool (!(← E.anyBinding binds predicate false location ctx))

def evalExpr (E : Engine) (e : Expr) (ctx : Context) : Eval Value := do
  Eval.note (.visit (.expr e))
  E.check e.id e.location ctx
  E.exprKind e.kind e.location ctx

end Engine

end Animator

import Animator.Eval.Engine
import Animator.Heap.Matching

/-!
# Definitions and binds

Local definitions, the choices of binds, and the restriction of a value by a bind.
-/

namespace Animator

namespace Engine

/-- Match a value against a `Pattern` that has to `match`. -/
def matchOrFail (E : Engine) (p : Pattern) (v : Value) (location : Location) (ctx : Context) :
    Eval Matched := do
  let h ← Eval.heap
  match h.match? p v with
  | some matched => return matched
  | none =>
    E.fail .patternMismatch ("value " ++ h.text v ++ " does not match pattern") location
      (ctx.hold v)

/-- A local function, with the bindings that are `visible` where it is defined. -/
def localFunction (definition : FunctionDef) (ctx : Context) : Value :=
  .function {
    definition
    captured := some ctx.visible
    className := ctx.self?.map (·.className)
    self := ctx.self? }

/-- Add one `definition` to the innermost scope. -/
def addDefinition (E : Engine) (d : Definition) (ctx : Context) : Eval Context := do
  match d.kind with
  | .value pattern ty e =>
    let v ← E.expr e ctx
    let v ←
      match ty with
      | some ty => E.consultHeap (·.convert ty v) d.location (ctx.hold v)
      | none => pure v
    return ctx.bindAll (← E.matchOrFail pattern v d.location ctx)
  | .function definition => return ctx.bind definition.name (localFunction definition ctx)

/-- Add definitions to the innermost scope, each seeing the ones before it. -/
def addDefinitions (E : Engine) : List Definition → Context → Eval Context
  | [], ctx => return ctx
  | d :: rest, ctx => do E.addDefinitions rest (← E.addDefinition d ctx)

def definitions (E : Engine) (defs : List Definition) (location : Location) (ctx : Context) :
    Eval Context := do
  E.addDefinitions defs (← Eval.derive ctx "let" location)

/-- The values that a `Bind` ranges over. -/
def candidates (E : Engine) (b : Bind) (location : Location) (ctx : Context) :
    Eval (List Value) :=
  match b with
  | .set _ set => E.set set ctx
  | .seq _ seq => E.seq seq ctx
  | .type _ ty =>
    match ty.values? with
    | some values => return values
    | none => E.fail .typeNotEnumerable ("type " ++ ty.text ++ " cannot be enumerated") location ctx

/-- The patterns of some binds with the values that they range over. -/
def allCandidates (E : Engine) (location : Location) (ctx : Context) :
    List Bind → Eval (List (Pattern × List Value))
  | [] => return []
  | b :: rest => do
    let values ← E.candidates b location ctx
    return (b.pattern, values) :: (← E.allCandidates location (ctx.holdAll values) rest)

/-- All consistent matches of some binds. -/
def combinations (E : Engine) (binds : List Bind) (location : Location) (ctx : Context) :
    Eval (List Matched) := do
  let candidates ← E.allCandidates location ctx binds
  return (← Eval.heap).combinations candidates

/-- Keep the values of some matches alive. -/
def holdMatches (ctx : Context) (rest : List Matched) : Context :=
  ctx.holdAll (rest.flatMap (·.map (·.2)))

/-- The value, if it is among some items. -/
def among (E : Engine) (v : Value) (items : List Value) (what : String) (all : Value) (code : Code)
    (location : Location) (ctx : Context) : Eval Value := do
  let h ← Eval.heap
  if items.any (h.equal · v) then return v
  else E.fail code (h.text v ++ " is not in " ++ what ++ " " ++ h.text all) location ctx

/-- The value as a `Bind` restricts it: it has to be in the set or the sequence, or to `convert` to
the type. -/
def restrict (E : Engine) (b : Bind) (v : Value) (code : Code) (location : Location)
    (ctx : Context) : Eval Value := do
  let ctx := ctx.hold v
  match b with
  | .set _ set =>
    let items ← E.set set ctx
    E.among v items "set" (.set items) code location ctx
  | .seq _ seq =>
    let items ← E.seq seq ctx
    E.among v items "sequence" (.seq items) code location ctx
  | .type _ ty =>
    match (← Eval.heap).convert ty v with
    | .ok w => return w
    | .error fault => E.fail code fault.message location ctx

/-- Match a value against a `pattern` or a `bind`; nothing if the pattern does not match. -/
def bindValue (E : Engine) (b : PatternBind) (v : Value) (code : Code) (location : Location)
    (ctx : Context) : Eval (Option Matched) := do
  match b with
  | .pattern p => return (← Eval.heap).match? p v
  | .bind b =>
    let v ← E.restrict b v code location ctx
    return (← Eval.heap).match? b.pattern v

end Engine

end Animator

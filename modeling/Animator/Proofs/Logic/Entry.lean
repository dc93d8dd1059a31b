import Animator.Proofs.Logic.Stmt

/-!
# Evaluations from outside

An `Entry` is something that a program is asked to evaluate. What holds of all expressions and
statements holds of every entry (`Logic.entry`). It holds also of every `Piece` of an evaluation in
progress: a call or the construction of an object is not a node of its own (`Logic.piece`).
-/

namespace Animator

def Node.eval (E : Engine) (c : Context) : Node → Eval Value
  | .stmt s => E.stmt s c
  | .expr e => E.expr e c

/-- A `Piece` of an evaluation, in some context. -/
inductive Piece where
  /-- A statement or an expression. -/
  | node (node : Node)
  /-- The call of an operation or a function. -/
  | call (callee : Value) (args : List Value) (location : Location)
  /-- The `construction` of an object. -/
  | construction (className : String) (args : List Value) (location : Location)

def Piece.run (E : Engine) (c : Context) : Piece → Eval Value
  | .node n => n.eval E c
  | .call callee args location => E.apply callee args location c
  | .construction className args location =>
    return .object (← E.newObject className args location c)

/-- Something that a program is asked to `evaluate`. -/
inductive Entry where
  /-- Call a routine of a module, or a static routine of a class. -/
  | call (owner name : String) (args : List Value)
  /-- Call an operation of an object. -/
  | callMethod (ref : ObjectRef) (name : String) (args : List Value)
  | newInstance (className : String) (args : List Value)
  | evaluate (e : Expr)
  | execute (s : Stmt)

namespace Entry

def run (E : Engine) : Entry → Eval Value
  | .call owner name args => E.call owner name args
  | .callMethod ref name args => E.callMethod ref name args
  | .newInstance className args => E.newInstance className args
  | .evaluate e => E.evaluate e
  | .execute s => E.execute s

/-- It brings nothing from outside of the `Origin`. -/
def From (o : Origin) : Entry → Prop
  | .call _ _ args | .callMethod _ _ args | .newInstance _ args => Values.From o args
  | .evaluate e => o.expr e
  | .execute s => o.stmt s

theorem from_all (entry : Entry) : entry.From .all := by
  cases entry with
  | call | callMethod | newInstance => exact Values.from_all _
  | evaluate | execute => trivial

end Entry

namespace Logic

variable {o : Origin} {E E' : Engine}

theorem piece (L : Logic .all E E') {c c' : Context} (piece : Piece) (hc : L.Ctx c c') :
    L.Holds (Same (·.From .all)) (piece.run E c) (piece.run E' c') := by
  cases piece with
  | node n =>
    cases n with
    | stmt s => exact L.stmt trivial hc
    | expr e => exact L.expr trivial hc
  | call callee args location =>
    exact L.apply (L.calls hc) (Value.from_all callee).bound (Values.from_all args)
  | construction className args location =>
    exact L.bindEq (L.newInstance (Values.from_all args) hc) fun _ => L.pureSame trivial

/-- The rules for what entries do apart from evaluating. -/
structure Entries (L : Logic o E E') : Prop where
  context {kind : RootKind} {title : String} {location : Location} :
    L.Holds L.Ctx (Eval.entry kind title location mainThread)
      (Eval.entry kind title location mainThread)
  routine {owner name : String} {arity : Nat} :
    L.Holds (Same (Option.Every (·.Bound o)))
      (Eval.reads fun m => Engine.routine E.program.model m.globals owner name arity)
      (Eval.reads fun m => Engine.routine E'.program.model m.globals owner name arity)
  unresolved {Q : Value → Value → Prop} {c c' : Context} {message : String} : L.Ctx c c' →
    L.Holds Q (Engine.unresolved message c) (Engine.unresolved message c')

theorem entry {L : Logic o E E'} (H : L.Entries) {entry : Entry} (he : entry.From o) :
    L.Holds (Same (·.From o)) (entry.run E) (entry.run E') := by
  cases entry with
  | call owner name args =>
    refine L.bind H.context fun root root' hroot => ?_
    refine L.bindSame H.routine fun callee hcallee => ?_
    cases callee with
    | none => exact H.unresolved hroot
    | some callee => exact L.apply (L.calls hroot) (hcallee callee rfl) he
  | callMethod ref name args =>
    refine L.bind H.context fun root root' hroot => ?_
    refine L.bindSame L.heap fun h hh => ?_
    dsimp only
    split
    · next hfind =>
      exact L.apply (L.calls hroot) (hh.members ref _ (List.mem_of_find?_eq_some hfind)) he
    · exact H.unresolved hroot
  | newInstance className args =>
    refine L.bind H.context fun root root' hroot => ?_
    exact L.bindEq (L.newInstance he hroot) fun _ => L.pureSame trivial
  | evaluate e => exact L.bind H.context fun root root' hroot => L.expr he hroot
  | execute s => exact L.bind H.context fun root root' hroot => L.stmt he hroot

end Logic

/-! ### Small trees -/

def Location.onLine (line : Nat) : Location :=
  { file := "demo", span := { line, column := 1 }, counter := line }

def Expr.onLine (line : Nat) (kind : ExprKind) : Expr :=
  { id := line, location := .onLine line, kind }

def Stmt.onLine (line : Nat) (kind : StmtKind) : Stmt :=
  { id := line, location := .onLine line, kind }

def OperationDef.plain (className name : String) (body : Stmt) : OperationDef :=
  { name := { module := className, text := name }
    params := [], paramTypes := [], result := .void, body, pre := none
    isStatic := false, isPure := false, location := body.location }

def Context.binding (bindings : Bindings) : Context :=
  { inner := { id := 0, title := "", location := .onLine 1, bindings }, thread := mainThread }

end Animator

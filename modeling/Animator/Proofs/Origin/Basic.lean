import Animator.Heap.Basic

/-!
# Origins of code

An `Origin` is a set of statements and expressions that may be executed. A routine comes from it if
the body and the precondition belong to it, and a value comes from it if every routine inside does
(`Value.From`). Evaluation only hands values on, so a machine whose values come from an origin never
executes anything outside of it.

Cells inside values can be ruled out as well: with `cells` false, `Value.From` says in addition that
no part of a value is a cell. A name may still stand for a cell (`Value.Bound`).
-/

namespace Animator

/-! ### Direct parts -/

def Designator.indices : Designator → List Expr
  | .name _ => []
  | .field object _ => object.indices
  | .index seq i => seq.indices ++ [i]

def Bind.exprs : Bind → List Expr
  | .set _ e | .seq _ e => [e]
  | .type _ _ => []

def PatternBind.exprs : PatternBind → List Expr
  | .pattern _ => []
  | .bind b => b.exprs

def FunctionDef.exprs (d : FunctionDef) : List Expr :=
  d.pre.toList ++ [d.body]

def Definition.exprs (d : Definition) : List Expr :=
  match d.kind with
  | .value _ _ e => [e]
  | .function definition => definition.exprs

/-- The expressions directly inside an expression. -/
def ExprKind.exprs : ExprKind → List Expr
  | .literal _ | .name _ | .selfRef | .time => []
  | .field object _ => [object]
  | .apply root args => root :: args
  | .unary _ operand => [operand]
  | .binary left _ right => [left, right]
  | .cond condition thenBranch elseBranch => [condition, thenBranch, elseBranch]
  | .letIn defs body => defs.flatMap (·.exprs) ++ [body]
  | .setEnum items | .seqEnum items | .tuple items => items
  | .setRange low high => [low, high]
  | .mkRecord _ fields => fields.map (·.2)
  | .new _ args => args
  | .existsIn binds predicate | .forAll binds predicate => binds.flatMap (·.exprs) ++ [predicate]

def Assignment.exprs (a : Assignment) : List Expr :=
  a.value :: a.target.indices

/-- The expressions directly inside a statement. -/
def StmtKind.exprs : StmtKind → List Expr
  | .assign a => a.exprs
  | .atomic as => as.flatMap (·.exprs)
  | .block dcls _ => dcls.flatMap (·.init.toList)
  | .letIn defs _ | .defIn defs _ => defs.flatMap (·.exprs)
  | .letBeSt binds predicate _ => binds.flatMap (·.exprs) ++ predicate.toList
  | .cond condition _ elseifs _ => condition :: elseifs.map (·.1)
  | .cases selector _ _ => [selector]
  | .forIndex _ first last step _ => [first, last] ++ step.toList
  | .forAll _ set _ => [set]
  | .forPattern bind seq _ _ => bind.exprs ++ [seq]
  | .while condition _ => [condition]
  | .call _ args => args
  | .callObject designator _ args => designator :: args
  | .start e | .startList e | .stop e | .stopList e => [e]
  | .cycles amount _ | .duration amount _ => [amount]
  | .trap bind _ _ => bind.exprs
  | .tixe alternatives _ => alternatives.flatMap (·.bind.exprs)
  | .exit value | .return value => value.toList
  | .classInvariant clauses => clauses
  | .always _ _ | .notYetSpecified | .skip => []

/-- The statements directly inside a statement. -/
def StmtKind.stmts : StmtKind → List Stmt
  | .block _ body => body
  | .letIn _ body | .defIn _ body | .letBeSt _ _ body => [body]
  | .cond _ thenBranch elseifs elseBranch => thenBranch :: elseifs.map (·.2) ++ elseBranch.toList
  | .cases _ alternatives others => alternatives.map (·.body) ++ others.toList
  | .forIndex _ _ _ _ body | .forAll _ _ body | .forPattern _ _ _ body | .while _ body => [body]
  | .cycles _ body | .duration _ body => [body]
  | .always cleanup body => [cleanup, body]
  | .trap _ handler body => [handler, body]
  | .tixe alternatives body => alternatives.map (·.handler) ++ [body]
  | _ => []

/-- The variables that a statement declares. -/
def StmtKind.declarations : StmtKind → List Declaration
  | .block dcls _ => dcls
  | _ => []

/-! ### Origins -/

/-- The statements and expressions that may be executed, and whether cells may be inside values. -/
structure Origin where
  expr : Expr → Prop
  stmt : Stmt → Prop
  cells : Prop
  /-- The variables that may be declared: their initial value, if they have one, and their type. -/
  declares : Option Expr → Ty → Prop := fun _ _ => True

namespace Origin

def all : Origin where
  expr _ := True
  stmt _ := True
  cells := True

variable (o : Origin)

def ExprParts (kind : ExprKind) : Prop :=
  ∀ e ∈ kind.exprs, o.expr e

structure StmtParts (kind : StmtKind) : Prop where
  exprs : ∀ e ∈ kind.exprs, o.expr e
  stmts : ∀ s ∈ kind.stmts, o.stmt s
  declarations : ∀ d ∈ kind.declarations, o.declares d.init d.ty

/-- The origin contains the parts of its nodes. -/
structure Closed : Prop where
  expr : ∀ e, o.expr e → o.ExprParts e.kind
  stmt : ∀ s, o.stmt s → o.StmtParts s.kind

/-- The location of a statement that belongs to the origin, or is directly inside one that does. -/
def Place (location : Location) : Prop :=
  ∃ s, (o.stmt s ∨ ∃ p, o.stmt p ∧ s ∈ p.kind.stmts) ∧ s.location = location

def Function (d : FunctionDef) : Prop :=
  ∀ e ∈ d.exprs, o.expr e

structure Operation (d : OperationDef) : Prop where
  body : o.stmt d.body
  pre : ∀ e, d.pre = some e → o.expr e

def Thread : ThreadDef → Prop
  | .plain body => o.stmt body
  | .periodic period jitter delay offset _ =>
    ∀ e ∈ [period, jitter, delay, offset], o.expr e
  | .sporadic minDelay maxDelay offset _ => ∀ e ∈ [minDelay, maxDelay, offset], o.expr e

structure Class (d : ClassDef) : Prop where
  operations : ∀ op ∈ d.operations, o.Operation op
  functions : ∀ f ∈ d.functions, o.Function f
  inits : ∀ v ∈ d.instanceVars, ∀ e, v.init = some e → o.expr e
  declares : ∀ v ∈ d.instanceVars, o.declares v.init v.ty
  values : ∀ v ∈ d.values, ∀ e ∈ v.exprs, o.expr e
  invariants : ∀ e ∈ d.invariants, o.expr e
  thread : ∀ t, d.thread = some t → o.Thread t

structure Whole : Prop where
  expr : ∀ e, o.expr e
  stmt : ∀ s, o.stmt s
  declares : ∀ init ty, o.declares init ty

variable {o}

theorem place_of_stmt {s : Stmt} (hs : o.stmt s) : o.Place s.location :=
  ⟨s, .inl hs, rfl⟩

theorem place_of_part {p s : Stmt} (hp : o.stmt p) (hs : s ∈ p.kind.stmts) : o.Place s.location :=
  ⟨s, .inr ⟨p, hp, hs⟩, rfl⟩

/-- In an origin that contains the parts of its nodes, places are those of its statements. -/
theorem Closed.exists_of_place (ho : o.Closed) {location : Location} (h : o.Place location) :
    ∃ s, o.stmt s ∧ s.location = location := by
  obtain ⟨s, hs | ⟨p, hp, hs⟩, hlocation⟩ := h
  · exact ⟨s, hs, hlocation⟩
  · exact ⟨s, (ho.stmt p hp).stmts s hs, hlocation⟩

theorem Whole.closed (ho : o.Whole) : o.Closed :=
  ⟨fun _ _ e _ => ho.expr e, fun _ _ =>
    ⟨fun e _ => ho.expr e, fun s _ => ho.stmt s, fun _ _ => ho.declares _ _⟩⟩

theorem Whole.operation (ho : o.Whole) (d : OperationDef) : o.Operation d :=
  ⟨ho.stmt d.body, fun e _ => ho.expr e⟩

theorem Whole.classes (ho : o.Whole) (d : ClassDef) : o.Class d where
  operations op _ := ho.operation op
  functions _ _ e _ := ho.expr e
  inits _ _ e _ := ho.expr e
  declares _ _ := ho.declares _ _
  values _ _ e _ := ho.expr e
  invariants e _ := ho.expr e
  thread t _ := by
    cases t with
    | plain body => exact ho.stmt body
    | periodic | sporadic => exact fun e _ => ho.expr e

theorem whole_all : Origin.all.Whole :=
  ⟨fun _ => trivial, fun _ => trivial, fun _ _ => trivial⟩

theorem closed_all : Origin.all.Closed :=
  whole_all.closed

theorem class_all (d : ClassDef) : Origin.all.Class d :=
  whole_all.classes d

end Origin

/-! ### Values -/

def Value.isCell : Value → Bool
  | .updatable _ => true
  | _ => false

mutual

/-- Every routine inside the value comes from the `Origin`. -/
def Value.From (o : Origin) : Value → Prop
  | .token inner => inner.From o
  | .seq items | .set items | .tuple items => Value.FromItems o items
  | .record _ fields => Value.FromFields o fields
  | .function func => Value.FromFunction o func
  | .operation op => o.Operation op.definition
  | .updatable _ => o.cells
  | _ => True

def Value.FromItems (o : Origin) : List Value → Prop
  | [] => True
  | v :: rest => v.From o ∧ Value.FromItems o rest

def Value.FromFields (o : Origin) : List (String × Value) → Prop
  | [] => True
  | (_, v) :: rest => v.From o ∧ Value.FromFields o rest

/-- The function comes from the `Origin`, and so does what it has brought with it. -/
def Value.FromFunction (o : Origin) : FunctionValue → Prop
  | ⟨definition, captured, _, _⟩ => o.Function definition ∧ Value.FromCaptured o captured

def Value.FromCaptured (o : Origin) : Option (List (Name × Value)) → Prop
  | none => True
  | some bindings => Value.FromBindings o bindings

def Value.FromBindings (o : Origin) : List (Name × Value) → Prop
  | [] => True
  | (_, v) :: rest => (v.isCell = true ∨ v.From o) ∧ Value.FromBindings o rest

end

/-- What a name may stand for: a cell, or a value that comes from the `Origin`. -/
def Value.Bound (o : Origin) (v : Value) : Prop :=
  v.isCell = true ∨ v.From o

/-- Bindings to cells and to values that come from the `Origin`. -/
def Bindings.From (o : Origin) (bindings : List (Name × Value)) : Prop :=
  ∀ b ∈ bindings, b.2.Bound o

def Values.From (o : Origin) (values : List Value) : Prop :=
  ∀ v ∈ values, v.From o

namespace Value

variable {o : Origin}

theorem fromItems_iff {items : List Value} : FromItems o items ↔ Values.From o items := by
  induction items with
  | nil => simp [FromItems, Values.From]
  | cons v rest ih => simp [FromItems, Values.From, ih]

theorem fromFields_iff {fields : List (String × Value)} :
    FromFields o fields ↔ ∀ f ∈ fields, f.2.From o := by
  induction fields with
  | nil => simp [FromFields]
  | cons f rest ih => simp [FromFields, ih]

theorem fromBindings_iff {bindings : List (Name × Value)} :
    FromBindings o bindings ↔ Bindings.From o bindings := by
  induction bindings with
  | nil => simp [FromBindings, Bindings.From]
  | cons b rest ih => simp [FromBindings, Bindings.From, Value.Bound, ih]

theorem from_function_iff {f : FunctionValue} :
    (Value.function f).From o ↔
      o.Function f.definition ∧ ∀ b, f.captured = some b → Bindings.From o b := by
  obtain ⟨definition, captured, className, self⟩ := f
  cases captured <;> simp [From, FromFunction, FromCaptured, fromBindings_iff]

theorem From.bound {v : Value} (hv : v.From o) : v.Bound o :=
  .inr hv

theorem bound_updatable (c : CellId) : (Value.updatable c).Bound o :=
  .inl rfl

theorem from_ofText (s : String) : (ofText s).From o := by
  refine fromItems_iff.2 fun v hv => ?_
  obtain ⟨c, -, rfl⟩ := List.mem_map.1 hv
  trivial

theorem from_ofLiteral (l : Literal) : (ofLiteral l).From o := by
  cases l with
  | text s => exact from_ofText s
  | _ => trivial

mutual

theorem from_all : ∀ v : Value, v.From .all
  | .void | .voidReturn | .nil | .bool _ | .int _ | .real _ | .char _ | .quote _ => trivial
  | .token inner => from_all inner
  | .seq items | .set items | .tuple items => fromItems_all items
  | .record _ fields => fromFields_all fields
  | .object _ => trivial
  | .function func => fromFunction_all func
  | .operation _ => ⟨trivial, fun _ _ => trivial⟩
  | .updatable _ => trivial

theorem fromItems_all : ∀ items : List Value, FromItems .all items
  | [] => trivial
  | v :: rest => ⟨from_all v, fromItems_all rest⟩

theorem fromFields_all : ∀ fields : List (String × Value), FromFields .all fields
  | [] => trivial
  | (_, v) :: rest => ⟨from_all v, fromFields_all rest⟩

theorem fromFunction_all : ∀ func : FunctionValue, FromFunction .all func
  | ⟨_, captured, _, _⟩ => ⟨fun _ _ => trivial, fromCaptured_all captured⟩

theorem fromCaptured_all : ∀ captured : Option (List (Name × Value)), FromCaptured .all captured
  | none => trivial
  | some bindings => fromBindings_all bindings

theorem fromBindings_all : ∀ bindings : List (Name × Value), FromBindings .all bindings
  | [] => trivial
  | (_, v) :: rest => ⟨.inr (from_all v), fromBindings_all rest⟩

end

end Value

theorem Bindings.from_all (bindings : List (Name × Value)) : Bindings.From .all bindings :=
  fun b _ => (Value.from_all b.2).bound

theorem Values.from_all (values : List Value) : Values.From .all values :=
  fun v _ => Value.from_all v

end Animator

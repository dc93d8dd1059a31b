import Animator.Proofs.Origin.Machine

/-!
# A logic of evaluations

What holds of every evaluation is shown once for each primitive step and then carried through the
constructs of the language. A `Logic` names such a property: `Holds Q x y` says that two evaluations
are related and that `Q` relates their results. It comes with one rule for everything that the
constructs are made of, and with the assumption that the expressions and statements of two engines
are related; everything else about the constructs is derived from these rules.

Two engines and two contexts allow for two runs to be compared. A property of single runs is a
relation of a run with itself (`Effect`).
-/

namespace Animator

/-- The same result on both sides, with a property. -/
def Same {α : Type} (P : α → Prop) (a b : α) : Prop :=
  a = b ∧ P a

def Option.Every {α : Type} (P : α → Prop) (found : Option α) : Prop :=
  ∀ a, found = some a → P a

/-- The value that an early end carries comes from the `Origin`. -/
def Halt.From (o : Origin) : Halt → Prop
  | .exit value _ => value.From o
  | _ => True

/-- What a node is belongs to the `Origin`. -/
def Origin.node (o : Origin) : Node → Prop
  | .stmt s => o.stmt s
  | .expr e => o.expr e

/-- Two contexts in which the same code is running. -/
structure Context.Alike (o : Origin) (c c' : Context) : Prop where
  self : c.self? = c'.self?
  owner : c.owner = c'.owner
  routine : c.routine? = c'.routine?
  args : ∀ routine, c.routine? = some routine → Values.From o routine.args
  visible : c.visible = c'.visible
  bindings : Bindings.From o c.visible
  inner : c.inner.values = c'.inner.values

theorem Context.Alike.refl (c : Context) : c.Alike .all c :=
  ⟨rfl, rfl, rfl, fun _ _ => Values.from_all _, rfl, Bindings.from_all _, rfl⟩

/-- Two engines that have the same `settings`, of which the second allows for no fewer `rounds`. -/
structure Engine.Alike (E E' : Engine) : Prop where
  rounds : E.rounds ≤ E'.rounds
  preChecks : E.settings.preChecks = E'.settings.preChecks
  invChecks : E.settings.invChecks = E'.settings.invChecks

theorem Engine.Alike.refl (E : Engine) : E.Alike E :=
  ⟨Nat.le_refl _, rfl, rfl⟩

/-- Arrive at a statement or an expression: what comes before its evaluation. -/
def Engine.arrive (E : Engine) (node : Node) (c : Context) : Eval Unit := do
  Eval.note (.visit node)
  E.check node.id node.location c

theorem Engine.evalExpr_eq_arrive (E : Engine) (e : Expr) (c : Context) :
    E.evalExpr e c = (do E.arrive (.expr e) c; E.exprKind e.kind e.location c) := by
  simp only [evalExpr, arrive, bind_assoc]
  rfl

theorem Engine.evalStmt_eq_arrive (E : Engine) (s : Stmt) (c : Context) :
    E.evalStmt s c = (do E.arrive (.stmt s) c; E.stmtKind s.kind s.location c) := by
  simp only [evalStmt, arrive, bind_assoc]
  rfl

/-- A relation between evaluations that is respected by going on and ending early, by calls, and by
what the debugger does. -/
structure Flow (o : Origin) (E E' : Engine) where
  /-- Two evaluations are related, and so are their results. -/
  Holds : {α : Type} → (α → α → Prop) → Eval α → Eval α → Prop
  Ctx : Context → Context → Prop
  Threads : Thread → Thread → Prop
  Halts : Halt → Halt → Prop
  /-- The object was made in the course of the evaluations. -/
  Made : ObjectRef → Prop
  engines : E.Alike E'
  -- Contexts.
  alike {c c' : Context} : Ctx c c' → c.Alike o c'
  holdAll {c c' : Context} (values : List Value) : Ctx c c' →
    Ctx (c.holdAll values) (c'.holdAll values)
  bindAll {c c' : Context} {matched : List (Name × Value)} : Ctx c c' → Bindings.From o matched →
    Ctx (c.bindAll matched) (c'.bindAll matched)
  -- Going on and ending early.
  pure {α : Type} {Q : α → α → Prop} {a b : α} : Q a b → Holds Q (pure a) (pure b)
  bind {α β : Type} {Q : α → α → Prop} {R : β → β → Prop} {x y : Eval α} {f g : α → Eval β} :
    Holds Q x y → (∀ a b, Q a b → Holds R (f a) (g b)) → Holds R (x >>= f) (y >>= g)
  fail {α : Type} {Q : α → α → Prop} {c c' : Context} {code : Code} {message : String}
    {location : Location} : Ctx c c' →
    Holds Q (E.fail code message location c) (E'.fail code message location c')
  raise {α : Type} {Q : α → α → Prop} {c c' : Context} {v : Value} {location : Location} :
    Ctx c c' → v.From o → Holds Q (E.raise v location c) (E'.raise v location c')
  exhausted {α : Type} {Q : α → α → Prop} : Holds Q (throw .exhausted) (throw .exhausted)
  -- A loop that is cut off, if the second engine allows for more rounds.
  cutOff {α : Type} {Q : α → α → Prop} {y : Eval α} : E.rounds ≠ E'.rounds →
    Holds Q (throw .exhausted) y
  isUnwinding {halt halt' : Halt} : Halts halt halt' → halt'.isUnwinding = halt.isUnwinding
  holdOutcome {c c' : Context} {halt halt' : Halt} : Ctx c c' → Halts halt halt' →
    Ctx (Engine.holdOutcome c (.error halt)) (Engine.holdOutcome c' (.error halt'))
  rethrow {α : Type} {Q : α → α → Prop} {halt halt' : Halt} : Halts halt halt' →
    halt.isUnwinding = false → halt.From o → Holds Q (throw halt) (throw halt')
  handle {α β : Type} {Q : α → α → Prop} {R : β → β → Prop} {x y : Eval α}
    {f g : Except Halt α → Eval β} : Holds Q x y →
    (∀ a b, Q a b → Holds R (f (.ok a)) (g (.ok b))) →
    (∀ halt halt', Halts halt halt' → halt.isUnwinding = false → halt.From o →
      Holds R (f (.error halt)) (g (.error halt'))) →
    (∀ halt, halt.isUnwinding = true →
      f (.error halt) = throw halt ∧ g (.error halt) = throw halt) →
    Holds R (x.outcome >>= f) (y.outcome >>= g)
  within {α : Type} {Q : α → α → Prop} {s : Section} {c c' : Context} {x y : Eval α} :
    s ≠ .debugging → Ctx c c' → Holds Q x y →
    Holds Q (Eval.within s c.thread x) (Eval.within s c'.thread y)
  -- Calls, and what the debugger does.
  living {c c' : Context} {self : Option ObjectRef} : Ctx c c' →
    Holds Eq (E.living self c) (E'.living self c')
  thread {c c' : Context} : Ctx c c' →
    Holds Threads (Eval.thread c.thread) (Eval.thread c'.thread)
  newObject {className : String} :
    Holds (Same Made) (Eval.newObject className) (Eval.newObject className)
  setMember {ref : ObjectRef} {name : Name} {v : Value} : Made ref → v.Bound o →
    Holds Eq (Eval.setMember ref name v) (Eval.setMember ref name v)
  unhit {designator : Expr} {location : Location} : o.expr designator → o.Place location →
    designator.location.sharesHits location = true →
    Holds Eq (Eval.change fun m => { m with hits := m.hits.unhit location.counter })
      (Eval.change fun m => { m with hits := m.hits.unhit location.counter })
  comeBack {c c' i i' : Context} {t t' : Thread} {location : Location} : Ctx c c' → Ctx i i' →
    Threads t t' →
    Holds Eq (E.comeBack t.isStepping location c i) (E'.comeBack t'.isStepping location c' i')
  arrive {node : Node} {c c' : Context} : o.node node → Ctx c c' →
    Holds Eq (do Eval.note (.visit node); E.check node.id node.location c)
      (do Eval.note (.visit node); E'.check node.id node.location c')

namespace Flow

variable {o : Origin} {E E' : Engine} (F : Flow o E E') {α β : Type} {R : β → β → Prop}
  {x y : Eval α}

theorem mono {Q R : α → α → Prop} (h : F.Holds Q x y) (hQR : ∀ a b, Q a b → R a b) :
    F.Holds R x y := by
  -- There is no rule for this: it follows by going on with nothing.
  have hpure := F.bind h fun a b hab => F.pure (hQR a b hab)
  rwa [bind_pure, bind_pure] at hpure

theorem bindSame {P : α → Prop} {f g : α → Eval β} (h : F.Holds (Same P) x y)
    (hf : ∀ a, P a → F.Holds R (f a) (g a)) : F.Holds R (x >>= f) (y >>= g) := by
  refine F.bind h ?_
  rintro a _ ⟨rfl, ha⟩
  exact hf a ha

theorem bindEq {f g : α → Eval β} (h : F.Holds Eq x y) (hf : ∀ a, F.Holds R (f a) (g a)) :
    F.Holds R (x >>= f) (y >>= g) := by
  refine F.bind h ?_
  rintro a _ rfl
  exact hf a

theorem same {P : α → Prop} (h : F.Holds Eq x y) (hP : ∀ a, P a) : F.Holds (Same P) x y :=
  F.mono h fun a _ hab => ⟨hab, hP a⟩

theorem eq_of_same {P : α → Prop} (h : F.Holds (Same P) x y) : F.Holds Eq x y :=
  F.mono h fun _ _ => And.left

theorem pureSame {P : α → Prop} {a : α} (ha : P a) :
    F.Holds (Same P) (Pure.pure a) (Pure.pure a) :=
  F.pure ⟨rfl, ha⟩

theorem pureEq (a : α) : F.Holds Eq (Pure.pure a) (Pure.pure a) :=
  F.pure rfl

end Flow

/-- A relation between evaluations that all constructs respect. -/
structure Logic (o : Origin) (E E' : Engine) extends Flow o E E' where
  -- The engines.
  expr {e : Expr} {c c' : Context} : o.expr e → Ctx c c' →
    Holds (Same (·.From o)) (E.expr e c) (E'.expr e c')
  stmt {s : Stmt} {c c' : Context} : o.stmt s → Ctx c c' →
    Holds (Same (·.From o)) (E.stmt s c) (E'.stmt s c')
  derive {c c' : Context} {title : String} {location : Location} : Ctx c c' →
    Holds Ctx (Eval.derive c title location) (Eval.derive c' title location)
  frame {c c' : Context} {root : Root} {title : String} {location : Location} : Ctx c c' →
    root.From o → Holds Ctx (Eval.frame c root title location) (Eval.frame c' root title location)
  -- Reading the machine.
  heap : Holds (Same (Heap.From o)) Eval.heap Eval.heap
  lookup {c c' : Context} {name : Name} : Ctx c c' →
    Holds (Same (Option.Every (·.Bound o))) (Eval.lookup c name) (Eval.lookup c' name)
  classScope {name : String} :
    Holds (Same (Option.Every fun s : ClassScope => o.Class s.definition))
      (Eval.reads (·.globals.class? name)) (Eval.reads (·.globals.class? name))
  timeLimit : Holds Eq (Eval.reads (·.scheduler.timeLimit)) (Eval.reads (·.scheduler.timeLimit))
  time {c c' : Context} : Ctx c c' →
    Holds Eq (Eval.reads fun m => m.scheduler.time c.thread)
      (Eval.reads fun m => m.scheduler.time c'.thread)
  routineKind {self : Option ObjectRef} {className : Option String} {module : String} :
    Holds Eq (Engine.routineKind self className module) (Engine.routineKind self className module)
  -- Changing the machine.
  newVariable {c c' : Context} {init : Option Expr} {ty : Ty} {owner : Option CellOwner}
    {location : Location} : (∀ e, init = some e → o.expr e) → o.declares init ty → Ctx c c' →
    Holds (Same (·.Bound o)) (E.newVariable init ty owner location c)
      (E'.newVariable init ty owner location c')
  write {c c' i i' : Context} {cell : CellId} {path : List Segment} {v : Value}
    {location : Location} : Ctx i i' → Ctx c c' → v.From o →
    Holds Eq (E.write cell path v location i c) (E'.write cell path v location i' c')
  delegate {c c' : Context} {owner : String} {operation : Name} {args : List Value}
    {self : Option ObjectRef} {location : Location} : Ctx c c' → Values.From o args →
    Holds (Same (Option.Every (·.From o))) (E.delegate owner operation args self location c)
      (E'.delegate owner operation args self location c')
  spawn {c c' : Context} {ref : ObjectRef} {job : Job} : Ctx c c' → job.body.From o →
    Holds Eq
      (Eval.change fun m => (m.spawn ref.text (some ref) (m.scheduler.time c.thread) job).2)
      (Eval.change fun m => (m.spawn ref.text (some ref) (m.scheduler.time c'.thread) job).2)
  stop {ref : ObjectRef} : Holds Eq (Eval.schedule (·.stop ref)) (Eval.schedule (·.stop ref))

namespace Logic

variable {o : Origin} {E E' : Engine} (L : Logic o E E') {c c' : Context}

/-- A construct is related to itself, with the two engines and in two contexts. -/
abbrev Keeps (c c' : Context) {α : Type} (Q : α → α → Prop) (x : Engine → Context → Eval α) :
    Prop :=
  L.Holds Q (x E c) (x E' c')

/-- A construct is related to itself, and its value comes from the origin. -/
abbrev Gives (c c' : Context) (x : Engine → Context → Eval Value) : Prop :=
  L.Keeps c c' (Same (·.From o)) x

/-- A rule that not every logic has, for the body of a statement with a fixed `Cost`. -/
def Spends : Prop :=
  ∀ {c c' : Context} {cost : Engine.Cost} {amount : Nat} {body : Stmt}, o.stmt body → L.Ctx c c' →
    L.Gives c c' (·.spend cost amount body ·)

/-- A property that not every logic has, for statements with handlers: related early ends are the
same. -/
def Faithful : Prop :=
  ∀ {halt halt' : Halt}, L.Halts halt halt' → halt' = halt

theorem hold (hc : L.Ctx c c') (v : Value) : L.Ctx (c.hold v) (c'.hold v) :=
  L.holdAll [v] hc

theorem bindName (hc : L.Ctx c c') (name : Name) {v : Value} (hv : v.Bound o) :
    L.Ctx (c.bind name v) (c'.bind name v) := by
  have hmatched : ∀ b ∈ [(name, v)], b.2.Bound o := by
    intro b hb
    rw [List.mem_singleton.1 hb]
    exact hv
  exact L.bindAll hc hmatched

/-! ### Calls -/

/-- What a call needs of the two contexts that it is made from. Nothing is said of the names that
are visible there. -/
structure Calls (c c' : Context) : Prop where
  fail {α : Type} {Q : α → α → Prop} {code : Code} {message : String} {location : Location}
    (values : List Value) :
    L.Holds Q (E.fail code message location (c.holdAll values))
      (E'.fail code message location (c'.holdAll values))
  living {self : Option ObjectRef} (values : List Value) :
    L.Holds Eq (E.living self (c.holdAll values)) (E'.living self (c'.holdAll values))
  frame {root : Root} {title : String} {location : Location} (values : List Value) : root.From o →
    L.Holds L.Ctx (Eval.frame (c.holdAll values) root title location)
      (Eval.frame (c'.holdAll values) root title location)
  within {α : Type} {Q : α → α → Prop} {s : Section} {x y : Eval α} : s ≠ .debugging →
    L.Holds Q x y → L.Holds Q (Eval.within s c.thread x) (Eval.within s c'.thread y)

theorem calls (hc : L.Ctx c c') : L.Calls c c' where
  fail values := L.fail (L.holdAll values hc)
  living values := L.living (L.holdAll values hc)
  frame values := L.frame (L.holdAll values hc)
  within hs := L.within hs hc

theorem Calls.holdAll {L : Logic o E E'} (hc : L.Calls c c') (values : List Value) :
    L.Calls (c.holdAll values) (c'.holdAll values) := by
  have happend : ∀ (c : Context) (more : List Value),
      (c.holdAll values).holdAll more = c.holdAll (more ++ values) := by
    intro c more
    simp only [Context.holdAll, List.append_assoc]
  refine ⟨fun more => ?_, fun more => ?_, fun more => ?_, hc.within⟩
  · rw [happend, happend]
    exact hc.fail _
  · rw [happend, happend]
    exact hc.living _
  · rw [happend, happend]
    exact hc.frame _

/-! ### Operations on values -/

namespace Calls

variable {L} {α : Type} {P : α → Prop} {location : Location} (hc : L.Calls c c')

include hc

theorem lift {result : Except ValueFault α} (hP : ∀ a, result = .ok a → P a) :
    L.Keeps c c' (Same P) (·.lift result location ·) := by
  cases result with
  | ok a => exact L.pureSame (hP a rfl)
  | error fault => exact hc.fail []

theorem consultHeap {f : Heap → Except ValueFault α}
    (hP : ∀ h : Heap, h.From o → ∀ a, f h = .ok a → P a) :
    L.Keeps c c' (Same P) (·.consultHeap f location ·) :=
  L.bindSame L.heap fun h hh => hc.lift (hP h hh)

end Calls

theorem lift {α : Type} {P : α → Prop} {result : Except ValueFault α} {location : Location}
    (hc : L.Ctx c c') (hP : ∀ a, result = .ok a → P a) :
    L.Keeps c c' (Same P) (·.lift result location ·) :=
  (L.calls hc).lift hP

theorem consultHeap {α : Type} {P : α → Prop} {f : Heap → Except ValueFault α} {location : Location}
    (hc : L.Ctx c c') (hP : ∀ h : Heap, h.From o → ∀ a, f h = .ok a → P a) :
    L.Keeps c c' (Same P) (·.consultHeap f location ·) :=
  (L.calls hc).consultHeap hP

theorem consultHeap' {α : Type} {f : Heap → Except ValueFault α} {location : Location}
    (hc : L.Ctx c c') : L.Keeps c c' Eq (·.consultHeap f location ·) :=
  L.mono (L.consultHeap (P := fun _ => True) hc fun _ _ _ _ => trivial) fun _ _ h => h.1

section Kinds

variable {e : Expr} (he : o.expr e) (hc : L.Ctx c c')

include he hc

theorem condition : L.Keeps c c' Eq (·.condition e ·) :=
  L.bindSame (L.expr he hc) fun v _ => L.consultHeap' (L.hold hc v)

theorem int : L.Keeps c c' Eq (·.int e ·) :=
  L.bindSame (L.expr he hc) fun v _ => L.consultHeap' (L.hold hc v)

theorem nat : L.Keeps c c' Eq (·.nat e ·) :=
  L.bindSame (L.expr he hc) fun v _ => L.consultHeap' (L.hold hc v)

theorem object : L.Keeps c c' Eq (·.object e ·) :=
  L.bindSame (L.expr he hc) fun v _ => L.consultHeap' (L.hold hc v)

theorem set : L.Keeps c c' (Same (Values.From o)) (·.set e ·) :=
  L.bindSame (L.expr he hc) fun v hv =>
    L.consultHeap (L.hold hc v) fun _ hh _ hi => hh.setItems hv.bound hi

theorem seq : L.Keeps c c' (Same (Values.From o)) (·.seq e ·) :=
  L.bindSame (L.expr he hc) fun v hv =>
    L.consultHeap (L.hold hc v) fun _ hh _ hi => hh.seqItems hv.bound hi

end Kinds

end Logic

end Animator

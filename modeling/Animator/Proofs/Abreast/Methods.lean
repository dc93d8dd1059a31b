import Animator.Proofs.Abreast.Basic
import Animator.Proofs.Effect.Extent
import Animator.Proofs.Lockstep.Scoping

/-!
# Methods of objects that nobody holds

A method can be called by a statement, or by an expression that takes the method from the object and
applies it. The statement holds the object until the call is over. The expression holds the method
only, and a method does not keep its object alive. So the method runs on the object if something
else holds it, and without an object if nothing does.
-/

namespace Animator

/-- No debugger is attached, and there are no breakpoints. The calls that are remembered are
compared as well. -/
def Lull.bare (short : Prop) : Lull :=
  { silent := False, nodes := fun _ => True, calls := True, short }

/-- Reaching two nodes at the same place, by `arrive`. -/
theorem Abreast.arrive_bare {P : Program} {E E' : Engine} {short : Prop} {c : Context}
    {node node' : Node} (S : (abreast (.bare short)).Sound P E E')
    (hlocation : node'.location = node.location) :
    Abreast (.bare short) Eq (E.arrive node c) (E'.arrive node' c) := by
  refine .arrive_of_meet S (.refl c) hlocation fun m m' h => ?_
  rw [E.meetBreakpoint_of_none node.location c (h.lulled.nodes _ trivial),
    E'.meetBreakpoint_of_none node.location c (h.right.nodes _ trivial)]
  exact .inr ⟨.value rfl, h⟩

/-! ### Calls of methods -/

namespace Engine

variable (E : Engine)

theorem object_apply {e : Expr} {c : Context} {m m₁ : Machine} {v : Value} {o : ObjectRef}
    (hrun : E.expr e c m = (.ok v, m₁)) (href : m₁.heap.objectRef v = .ok o) :
    E.object e c m = (.ok o, m₁) := by
  refine (bind_of_ok hrun).trans ((bind_of_ok rfl).trans ?_)
  dsimp only
  rw [href]
  rfl

/-- The rest of a call of an operation, once it is known which object it runs on. -/
def runOperation (self : Option ObjectRef) (op : OperationValue) (args : List Value)
    (location : Location) (ctx : Context) : Eval Value := do
  let d := op.definition
  let kind ← routineKind self op.className d.name.module
  let call ← Eval.frame ctx { kind, routine := some { name := d.name, args } } d.name.display
    d.location
  let call ← E.bindParams d.location d.params d.paramTypes args call
  E.checkPre d.pre d.name location call
  purely d.isPure ctx.thread do
    let result ← E.stmt d.body call
    unless d.isPure do
      match self with
      | some o => E.checkInvariants o location (ctx.holdAll (result :: call.inner.values))
      | none => pure ()
    E.resultValue result d.result d.location call

end Engine

/-- Whether an object is alive for a call from a context. -/
def Program.keeps (P : Program) (c : Context) (m : Machine) (ref : ObjectRef) : Bool :=
  m.heap.isAlive (fun node =>
    c.holds node || m.holds node || P.delegates.values.any (·.refersTo node)) ref

/-- An operation of an object runs (`runOperation`) on that object if it is alive, and on none if it
is not. -/
theorem Engine.callOperation_apply (E : Engine) {op : OperationValue} {ref : ObjectRef}
    (hself : op.self = some ref) {args : List Value}
    (harity : args.length = op.definition.params.length) (location : Location) (c : Context)
    (m : Machine) :
    let alive := E.program.keeps (c.holdAll args) m ref
    E.callOperation op args location c m =
      E.runOperation (if alive then some ref else none) op args location c
        { m with calls := (ref, alive) :: m.calls } := by
  have harity' : E.checkArity op.definition.name op.definition.params.length args.length location
      (c.holdAll args) m = (.ok (), m) := by
    unfold Engine.checkArity
    rw [if_pos harity.symm]
    rfl
  refine (bind_of_ok harity').trans ?_
  rw [hself]
  rfl

theorem Heap.select_of_objectRef {h : Heap} {v : Value} {ref : ObjectRef}
    (href : h.objectRef v = .ok ref) (name : Name) : h.select v name = h.field ref name := by
  unfold Heap.objectRef at href
  unfold Heap.select
  split at href
  · next found hfound =>
    cases href
    rw [hfound]
  · cases href

theorem Heap.id_le_of_field {h : Heap} {ref : ObjectRef} {name : Name} {v : Value}
    (hfield : h.field ref name = .ok v) : ref.id ≤ h.objects.size := by
  rcases Nat.lt_or_ge h.objects.size ref.id with hlt | hle
  · -- An object that is not there has no members.
    have hnone : h.object? ref.id = none := by
      cases hid : ref.id with
      | zero => rfl
      | succ n =>
        rw [hid] at hlt
        exact Array.getElem?_eq_none (Nat.le_of_lt_succ hlt)
    have hmembers : h.members ref = [] := by
      rw [Heap.members, hnone]
    rw [Heap.field, Heap.member?, hmembers] at hfield
    cases hfield
  · exact hle

theorem Heap.Extends.field {h h' : Heap} (hh : h.Extends h') {ref : ObjectRef} {name : Name}
    {v : Value} (hfield : h.field ref name = .ok v) : h'.field ref name = .ok v := by
  rw [← hfield]
  unfold Heap.field Heap.member?
  rw [hh.members ref (Heap.id_le_of_field hfield)]

section Forms

variable {P : Program} {n : Nat} {c : Context} {m m₁ : Machine} {call field e : Expr} {s : Stmt}
  {f : Name} {args : List Expr} {v : Value} {o : ObjectRef} {op : OperationValue}

/-- What the expression does before it comes to the arguments. -/
def Program.reachObject (P : Program) (n : Nat) (call field e : Expr) (c : Context) :
    Eval Value := do
  (P.engine (n + 1)).arrive (.expr call) c
  (P.engine n).arrive (.expr field) c
  (P.engine n).expr e c

/-- The expression comes to the arguments, with the method in hand. -/
theorem expr_of_reachObject (hcall : call.kind = .apply field args)
    (hfield : field.kind = .field e f)
    (hobject : P.reachObject n call field e c m = (.ok v, m₁)) (href : m₁.heap.objectRef v = .ok o)
    (hmember : m₁.heap.field o f = .ok (.operation op)) :
    (P.engine (n + 2)).expr call c m =
      (do
        let vs ← (P.engine (n + 1)).exprs (c.hold (.operation op)) args
        (P.engine (n + 1)).apply (.operation op) vs call.location c : Eval Value) m₁ := by
  obtain ⟨_, m₂, hrun₁, hobject⟩ := exists_of_bind_eq_ok hobject
  obtain ⟨_, m₃, hrun₂, hrun₃⟩ := exists_of_bind_eq_ok hobject
  have hselect : (P.engine n).consultHeap (·.select v f) field.location (c.hold v) m₁ =
      (.ok (.operation op), m₁) := by
    refine (bind_of_ok rfl).trans ?_
    dsimp only
    rw [Heap.select_of_objectRef href, hmember]
    rfl
  have hmethod : (P.engine (n + 1)).expr field c m₂ = (.ok (.operation op), m₁) := by
    refine (congrFun ((P.engine n).evalExpr_eq_arrive field c) m₂).trans ?_
    rw [bind_of_ok hrun₂, hfield]
    exact (bind_of_ok hrun₃).trans ((bind_of_ok hselect).trans rfl)
  refine (congrFun ((P.engine (n + 1)).evalExpr_eq_arrive call c) m).trans ?_
  rw [bind_of_ok hrun₁, hcall]
  exact bind_of_ok hmethod

/-- The statement, as `callOn`, comes to the arguments as well, with the object in hand. -/
theorem stmt_of_reachObject (hs : s.kind = .callObject e f args)
    (hlocation : s.location = call.location) (hm : m.Lulled (.bare True))
    (hobject : P.reachObject n call field e c m = (.ok v, m₁))
    (href : m₁.heap.objectRef v = .ok o) :
    ∃ stepping m₂, m₁.Abreast (.bare False) m₂ ∧
      (P.engine (n + 2)).stmt s c m =
        (P.engine (n + 1)).callOn stepping o f args call.location c m₂ := by
  obtain ⟨_, m₂, hrun₁, hobject⟩ := exists_of_bind_eq_ok hobject
  obtain ⟨_, m₃, hrun₂, hrun₃⟩ := exists_of_bind_eq_ok hobject
  -- Both reach the place of the call, and the expression reaches that of the method as well.
  have harrive : Abreast (.bare True) Eq ((P.engine (n + 1)).arrive (.expr call) c)
      ((P.engine (n + 1)).arrive (.stmt s) c) :=
    .arrive_bare (Abreast.engine_self _ P (n + 1)) hlocation
  obtain ⟨m₂', hrun₁', habreast₂⟩ := harrive.of_ok (.refl hm) hrun₁
  have habreast₃ : m₂.Abreast (.bare True) m₃ := by
    have hask := Program.unasked_of_arrive hm.link hrun₁
    rcases (P.engine n).arrive_unseen (.expr field) habreast₂.lulled hask trivial with
      ⟨_, hrun, habreast⟩ | ⟨hdebugging, hstop⟩
    · cases hrun.symm.trans hrun₂
      exact habreast
    · obtain ⟨_, hrun, -⟩ :=
        (P.engine n).arrive_stopped (.expr field) habreast₂.lulled hdebugging hstop
      cases hrun.symm.trans hrun₂
  -- The statement evaluates the object with a larger bound.
  have hexpr : Abreast (.bare True) Eq ((P.engine n).expr e c) ((P.engine (n + 1)).expr e c) :=
    (Abreast.engine _ trivial P n 1).expr (.refl c)
  obtain ⟨m₁', hrun₃', h⟩ := hexpr.of_ok (habreast₃.symm.trans habreast₂) hrun₃
  have hcast : (P.engine (n + 1)).object e c m₂' = (.ok o, m₁') :=
    Engine.object_apply _ hrun₃' (h.heap ▸ href)
  refine ⟨(m₂'.thread c.thread).isStepping, if e.location.sharesHits call.location then
    { m₁' with hits := m₁'.hits.unhit call.location.counter } else m₁', ?_, ?_⟩
  · -- What is counted does not show.
    split <;> exact ⟨⟨h.lulled.link, h.lulled.request, h.lulled.nodes⟩, h.gist, h.calls⟩
  · refine (congrFun ((P.engine (n + 1)).evalStmt_eq_arrive s c) m).trans ?_
    rw [bind_of_ok hrun₁', hs, Engine.callObject_apply _ hcast, hlocation]

/-- A method that `callMember` is given is there, after the arguments as before. -/
theorem Engine.callMember_apply {E : Engine} {location : Location} {vs : List Value}
    (hmember : m.heap.field o f = .ok (.operation op)) (stepping : Bool) (inner : Context) :
    (do
      let inner := if ((← Eval.heap).field o f).isOk then inner else inner.holdAll vs
      let result ← E.callMember o f vs location inner
      E.comeBack stepping location c (inner.hold result)
      return result : Eval Value) m =
    (do
      let result ← E.apply (.operation op) vs location inner
      E.comeBack stepping location c (inner.hold result)
      return result : Eval Value) m := by
  have hheap : Eval.heap m = (.ok m.heap, m) := rfl
  have hcall : E.callMember o f vs location inner m =
      E.apply (.operation op) vs location inner m := by
    rw [callMember, bind_of_ok hheap, hmember]
    rfl
  have hok : (Except.ok (Value.operation op) : Except ValueFault Value).isOk = true := rfl
  rw [bind_of_ok hheap, hmember, if_pos hok]
  rcases hrun : E.apply (.operation op) vs location inner m with ⟨_ | result, m₁⟩
  · rw [bind_of_error (hcall.trans hrun), bind_of_error hrun]
  · rw [bind_of_ok (hcall.trans hrun), bind_of_ok hrun]

/-- Evaluating arguments leaves the members of objects alone. -/
theorem field_of_exprs {i : Context} {vs : List Value} (hmember : m.heap.field o f = .ok v)
    (hrun : (P.engine n).exprs i args m = (.ok vs, m₁)) : m₁.heap.field o f = .ok v := by
  have hleaves := (extentDrift P m.heap).leaves Origin.closed_all n
  have hexprs : (extentDrift P m.heap).effect.Does _ ((P.engine n).exprs i args) :=
    (Effect.logic hleaves).exprs ⟨rfl, i.from_all, trivial⟩ fun _ _ => trivial
  have hextends : m.heap.Extends ((P.engine n).exprs i args m).2.heap :=
    (hexprs m m.from_all .refl).inv
  rw [hrun] at hextends
  exact hextends.field hmember

/-- The statement from the arguments on (`callOn`): it does the same as a call from a context that
holds the object, and comes back. -/
theorem callOn_of_abreast (args : List Expr) (stepping : Bool) (location : Location)
    (h : m.Abreast (.bare False) m₁) (hmember : m₁.heap.field o f = .ok (.operation op)) :
    (abreast (.bare False)).Both Eq
      ((do
        let vs ← (P.engine n).exprs (c.hold (.object o)) args
        (P.engine n).apply (.operation op) vs location (c.hold (.object o)) : Eval Value) m)
      ((P.engine n).callOn stepping o f args location c m₁) := by
  let i := c.hold (.object o)
  let L := P.abreast (.bare False) n
  have hargs : Abreast (.bare False) Eq ((P.engine n).exprs i args) ((P.engine n).exprs i args) :=
    .eq_of_same (L.exprs (.refl i) fun _ _ => trivial)
  refine hargs.bindAt h ?_
  rintro vs _ m₂ m₂' rfl - hrun' h₂
  have happly : Abreast (.bare False) Eq ((P.engine n).apply (.operation op) vs location i)
      ((P.engine n).apply (.operation op) vs location i) :=
    .eq_of_same (L.apply (L.calls (.refl i)) (Value.from_all _).bound (Values.from_all _))
  have hback : ∀ result : Value, Abreast (.bare False) Eq (pure result) (do
      (P.engine n).comeBack stepping location c (i.hold result)
      return result) := by
    intro result m m' h
    rw [bind_of_ok ((P.engine n).comeBack_of_none stepping location c (i.hold result) h.right.link)]
    exact .inr ⟨.value rfl, h.lulled, h.gist, h.calls⟩
  have hcall := happly.bindEq hback m₂ m₂' h₂
  rw [bind_pure] at hcall
  rwa [← Engine.callMember_apply (field_of_exprs hmember hrun')] at hcall

/-- A method holds nothing, so holding it is as good (`holdsOutside`) as holding its object only if
the object is held already. -/
theorem holdsOutside_hold (op : OperationValue) (hheld : c.holdsOutside (.object o.id) = true)
    (node : HeapNode) :
    (c.hold (.object o)).holdsOutside node = c.holdsOutside node ∧
      (c.hold (.operation op)).holdsOutside node = c.holdsOutside node := by
  have hmore : ∀ v : Value, (c.hold v).holdsOutside node =
      (v.refersTo node || c.holdsOutside node) := by
    intro v
    simp only [Context.holdsOutside, Context.hold, List.any_cons, Bool.or_assoc]
  rw [hmore, hmore]
  refine ⟨?_, rfl⟩
  by_cases hnode : node = .object o.id
  · rw [hnode, hheld, Bool.or_true]
  · have hrefers : (Value.object o).refersTo node = false := by
      simpa [Value.refersTo, Value.references] using hnode
    rw [hrefers, Bool.false_or]

/-- The expression, and the same call from a context that holds the object. They have the same
outcome and leave the same heap, unless a routine is called whose object is alive in one of them
only (`Parted`). -/
theorem call_of_held {location : Location} (hlink : m.link = none) :
    let E := P.engine n
    let free := (do
      let vs ← E.exprs (c.hold (.operation op)) args
      E.apply (.operation op) vs location c : Eval Value) m
    let held := (do
      let vs ← E.exprs (c.hold (.object o)) args
      E.apply (.operation op) vs location (c.hold (.object o)) : Eval Value) m
    free.1 = held.1 ∧ free.2.heap = held.2.heap ∨
      free.2.Parted held.2 ∧ c.holdsOutside (.object o.id) = false := by
  intro E free held
  let D := Pairing.parting P (c.holdsOutside (.object o.id) = true)
  have hakin : (c.hold (.operation op)).Akin D.Level (c.hold (.object o)) := by
    refine ⟨rfl, .refl _, fun hlevel node => ?_⟩
    obtain ⟨hobject, hmethod⟩ := holdsOutside_hold op hlevel node
    rw [hobject, hmethod]
  have hcalls : (D.engine n).logic.Calls c (c.hold (.object o)) := by
    refine D.calls rfl rfl fun hlevel node => ?_
    have hinner : (c.hold (.object o)).inner = c.inner := rfl
    rw [Context.holds_eq, Context.holds_eq, hinner,
      (holdsOutside_hold op hlevel node).1]
  have hboth : D.Holds Eq
      (do let vs ← E.exprs (c.hold (.operation op)) args; E.apply (.operation op) vs location c)
      (do
        let vs ← E.exprs (c.hold (.object o)) args
        E.apply (.operation op) vs location (c.hold (.object o))) := by
    refine .bindEq (.eq_of_same ((D.engine n).logic.exprs hakin fun _ _ => trivial)) fun vs => ?_
    exact .eq_of_same ((D.engine n).logic.apply hcalls (Value.from_all _).bound
      (Values.from_all vs))
  have hlinked : D.Linked m m := .refl ⟨hlink, False.elim⟩
  rcases hboth.both hlinked with ⟨houtcomes, hagrees⟩ | ⟨hparted, hlevel⟩
  · refine .inl ⟨(houtcomes.eq_of_same rfl).symm, ?_⟩
    exact (hagrees.read (f := Machine.heap) fun _ _ => rfl).symm
  · exact .inr ⟨hparted, Bool.eq_false_iff.2 hlevel⟩

/-- A method call as an expression runs the method (`runOperation`) on its object if the object is
alive when the arguments have been evaluated, and on no object if it is not. It has the same outcome
as the statement that calls the method, and leaves the same cells and objects, with one exception: a
routine may have been called whose object was alive in one of them only. Then the context does not
hold the object. -/
theorem method_call_needs_holder (hcall : call.kind = .apply field args)
    (hfield : field.kind = .field e f) (hs : s.kind = .callObject e f args)
    (hlocation : s.location = call.location) (hlink : m.link = none)
    (hbreakpoints : m.breakpoints.entries = [])
    (hobject : P.reachObject n call field e c m = (.ok v, m₁)) (href : m₁.heap.objectRef v = .ok o)
    (hmember : m₁.heap.field o f = .ok (.operation op)) (hself : op.self = some o) :
    let E := P.engine (n + 1)
    let asExpr := (P.engine (n + 2)).expr call c m
    let asStmt := (P.engine (n + 2)).stmt s c m
    (∀ vs m₂, E.exprs (c.hold (.operation op)) args m₁ = (.ok vs, m₂) →
      vs.length = op.definition.params.length →
      let alive := P.keeps (c.holdAll vs) m₂ o
      asExpr = E.runOperation (if alive then some o else none) op vs call.location c
        { m₂ with calls := (o, alive) :: m₂.calls }) ∧
    (asExpr.1 = asStmt.1 ∧ asExpr.2.heap = asStmt.2.heap ∨
      asExpr.2.Parted asStmt.2 ∧ c.holdsOutside (.object o.id) = false) := by
  intro E asExpr asStmt
  have hexpr : asExpr = _ := expr_of_reachObject hcall hfield hobject href hmember
  refine ⟨fun vs m₂ hargs harity => ?_, ?_⟩
  · rw [hexpr, bind_of_ok hargs]
    exact E.callOperation_apply hself harity call.location c m₂
  · have hm : m.Lulled (.bare True) := by
      exact ⟨hlink, False.elim, fun node _ => BreakpointTable.at?_of_entries_nil hbreakpoints node⟩
    obtain ⟨stepping, m₂, h, hstmt⟩ := stmt_of_reachObject hs hlocation hm hobject href
    obtain ⟨houtcomes, h₁⟩ := (callOn_of_abreast (P := P) (n := n + 1) args stepping call.location h
      (h.heap ▸ hmember)).resolve_left And.left
    rw [hexpr, show asStmt = _ from hstmt, ← houtcomes.eq, ← h₁.heap]
    refine (call_of_held h.lulled.link).imp_right fun hapart => ⟨?_, hapart.2⟩
    obtain ⟨ref, alive, before, hfree, hbefore⟩ := hapart.1
    exact ⟨ref, alive, before, hfree, h₁.calls trivial ▸ hbefore⟩

end Forms

def lampLook : OperationValue :=
  { definition := OperationDef.plain "Lamp" "look"
      (.onLine 3 (.return (some (.onLine 3 (.name (deskName "Lamp" "light"))))))
    className := some "Lamp", self := some ⟨1, "Lamp"⟩ }

def lampMachine : Machine :=
  { heap := {
      cells := #[{ value := .int 7, ty := .nat }]
      objects := #[{
        className := "Lamp"
        members := [(deskName "Lamp" "look", .operation lampLook),
          (deskName "Lamp" "light", .updatable 0)] }] }
    scheduler := (Scheduler.attach {} "main" 0).2 }

def Value.method? : Value → Option ObjectRef
  | .operation op => op.self
  | _ => none

/-- A caller that holds the lamp, and knows it by a name. -/
def lampCaller : Context :=
  { deskCaller [(deskName "Desk" "mine", deskLamp)] with held := [deskLamp] }

def myLamp : Expr :=
  .onLine 7 (.name (deskName "Desk" "mine"))

def lookOf (e : Expr) : Expr :=
  .onLine 7 (.field e (deskName "Lamp" "look"))

def lookAt (e : Expr) : Expr :=
  .onLine 7 (.apply (lookOf e) [])

def lookAtIt (e : Expr) : Stmt :=
  .onLine 7 (.callObject e (deskName "Lamp" "look") [])

/-- A `lampCaller`, which holds the lamp, can look at it in both ways. -/
theorem method_call_needs_holder_lamp :
    let asExpr := (deskProgram.engine (4 + 2)).expr (lookAt myLamp) lampCaller lampMachine
    let asStmt := (deskProgram.engine (4 + 2)).stmt (lookAtIt myLamp) lampCaller lampMachine
    asExpr.1.toOption.map asExpr.2.heap.text = some "7" ∧
      asExpr.1 = asStmt.1 ∧ asExpr.2.heap = asStmt.2.heap := by
  have hfirst : (deskProgram.reachObject 4 (lookAt myLamp) (lookOf myLamp) myLamp lampCaller
      lampMachine).1 = .ok deskLamp := rfl
  have href : (deskProgram.reachObject 4 (lookAt myLamp) (lookOf myLamp) myLamp lampCaller
      lampMachine).2.heap.objectRef deskLamp = .ok ⟨1, "Lamp"⟩ := rfl
  have hmember : (deskProgram.reachObject 4 (lookAt myLamp) (lookOf myLamp) myLamp lampCaller
      lampMachine).2.heap.field ⟨1, "Lamp"⟩ (deskName "Lamp" "look") =
      .ok (.operation lampLook) := rfl
  refine ⟨by decide +kernel, ?_⟩
  have hcall : (lookAt myLamp).kind = .apply (lookOf myLamp) [] := rfl
  refine Or.resolve_right (And.right (method_call_needs_holder (s := lookAtIt myLamp) hcall rfl rfl
    rfl rfl rfl (Prod.ext hfirst rfl) href hmember rfl)) ?_
  rintro ⟨-, hfree⟩
  exact absurd hfree (by decide)

/-- But a new lamp that nobody else holds is gone before it is looked at, and so are its variables.
The statement holds it (`reachObject`). -/
theorem method_call_loses_new_object :
    let e : Expr := .onLine 7 (.new "Lamp" [])
    let reached := deskProgram.reachObject 18 (lookAt e) (lookOf e) e (deskCaller []) deskMachine
    let asExpr := (deskProgram.engine 20).expr (lookAt e) (deskCaller []) deskMachine
    let asStmt := (deskProgram.engine 20).stmt (lookAtIt e) (deskCaller []) deskMachine
    deskMachine.link = none ∧ deskMachine.breakpoints.entries.isEmpty = true ∧
      (reached.1.toOption.bind fun v => (reached.2.heap.objectRef v).toOption) = some ⟨2, "Lamp"⟩ ∧
      ((reached.2.heap.field ⟨2, "Lamp"⟩ (deskName "Lamp" "look")).toOption.bind Value.method?) =
        some ⟨2, "Lamp"⟩ ∧
      asStmt.1.toOption.map asStmt.2.heap.text = some "7" ∧ asExpr.1.isOk = false := by
  decide +kernel

end Animator

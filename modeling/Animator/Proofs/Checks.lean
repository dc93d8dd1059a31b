import Animator.Proofs.Logic.Basic

/-!
# What checks are made of

A breakpoint evaluates expressions for the debugger and stops the thread. If a relation between
evaluations is respected by what is evaluated (`Reaction`), and by stops and everything else that
checks consist of (`Vigil`), then it is respected by all that happens before a node is evaluated,
when a value is raised, and when a call comes back.
-/

namespace Animator

/-- The condition of a stoppoint, evaluated for the debugger. -/
def Engine.asks (E : Engine) (e : Expr) (location : Location) (c : Context) :
    Eval (Except Halt Bool) :=
  (Eval.within .debugging c.thread do
    let v ← E.expr e c
    E.consultHeap (·.boolean v) location c).outcome

/-- What a `breakpoint` does, after it has been counted that it is met. -/
def Engine.takeEffect (E : Engine) (b : Breakpoint) (location : Location) (c : Context) :
    Eval Bool :=
  match b.kind with
  | .stop condition => do
    let stops ← E.stopsOn (b.hits + 1) location c condition
    if stops then E.suspend (.breakpoint b.number) location c
    return stops
  | .trace exprs => do
    let texts ← E.traceTexts c exprs
    Eval.log c.thread ("trace [" ++ toString b.number ++ "] at " ++ location.text ++ ": "
      ++ ", ".intercalate texts)
    return false
  | .catch _ => return false

/-- A relation between evaluations that going on respects, and looking at the heap. -/
structure Chains (Holds : {α : Type} → (α → α → Prop) → Eval α → Eval α → Prop) : Prop where
  pure {α : Type} {a : α} : Holds Eq (Pure.pure a) (Pure.pure a)
  bindEq {α β : Type} {R : β → β → Prop} {x y : Eval α} {f g : α → Eval β} : Holds Eq x y →
    (∀ a, Holds R (f a) (g a)) → Holds R (x >>= f) (y >>= g)
  heap : Holds Eq Eval.heap Eval.heap

/-- What breakpoints do in two contexts respects the relation, if stops do. -/
structure Reaction (Holds : {α : Type} → (α → α → Prop) → Eval α → Eval α → Prop) (E E' : Engine)
    (c c' : Context) (Watch : Expr → Prop := fun _ => True) : Prop extends Chains Holds where
  log {text : String} : (∃ rest, text = "trace [" ++ rest) →
    Holds Eq (Eval.log c.thread text) (Eval.log c'.thread text)
  inspect {e : Expr} : Watch e → Holds Eq (E.inspect e c) (E'.inspect e c')
  asks {e : Expr} {location : Location} : Watch e →
    Holds Eq (E.asks e location c) (E'.asks e location c')

namespace Reaction

variable {Holds : {α : Type} → (α → α → Prop) → Eval α → Eval α → Prop} {E E' : Engine}
  {c c' : Context} {Watch : Expr → Prop} (R : Reaction Holds E E' c c' Watch) {location : Location}

include R

theorem stopsOn {hits : Nat} {condition : StopCondition}
    (hwatch : ∀ e ∈ (BreakpointKind.stop condition).exprs, Watch e) :
    Holds Eq (E.stopsOn hits location c condition) (E'.stopsOn hits location c' condition) := by
  cases condition with
  | always | hits => exact R.pure
  | expr e =>
    refine R.bindEq (R.asks (hwatch e List.mem_cons_self)) fun result => ?_
    cases result <;> exact R.pure

theorem traceTexts {es : List Expr} (hwatch : ∀ e ∈ es, Watch e) :
    Holds Eq (E.traceTexts c es) (E'.traceTexts c' es) := by
  induction es with
  | nil => exact R.pure
  | cons e rest ih =>
    obtain ⟨he, hrest⟩ := List.forall_mem_cons.1 hwatch
    refine R.bindEq (R.inspect he) fun first => R.bindEq R.heap fun h => ?_
    exact R.bindEq (ih hrest) fun _ => R.pure

theorem takeEffect {b : Breakpoint} (hwatch : ∀ e ∈ b.kind.exprs, Watch e)
    (hsuspend : Holds Eq (E.suspend (.breakpoint b.number) location c)
      (E'.suspend (.breakpoint b.number) location c')) :
    Holds Eq (E.takeEffect b location c) (E'.takeEffect b location c') := by
  unfold Engine.takeEffect
  cases hkind : b.kind with
  | stop condition =>
    refine R.bindEq (R.stopsOn (hkind ▸ hwatch)) fun stops => ?_
    cases stops with
    | true => exact R.bindEq hsuspend fun _ => R.pure
    | false => exact R.pure
  | trace es =>
    refine R.bindEq (R.traceTexts
      (by simpa [hkind, BreakpointKind.exprs] using hwatch)) fun texts => ?_
    exact R.bindEq (R.log ⟨_, by simp only [String.append_assoc]; rfl⟩) fun _ => R.pure
  | «catch» filter => exact R.pure

end Reaction

/-- What checks do in two contexts respects the relation, apart from `breakpoints`. Stops make no
difference, even if only one of the two stops. -/
structure Vigil (Holds : {α : Type} → (α → α → Prop) → Eval α → Eval α → Prop) (E E' : Engine)
    (c c' : Context) : Prop extends Chains Holds where
  onThread : c'.thread = c.thread
  isRealTime : E'.settings.isRealTime = E.settings.isRealTime
  thread : Holds Eq (Eval.thread c.thread) (Eval.thread c.thread)
  table {α : Type} (f : BreakpointTable → α) :
    Holds Eq (Eval.reads fun m => f m.breakpoints) (Eval.reads fun m => f m.breakpoints)
  note (event event' : Event) : Holds Eq (Eval.note event) (Eval.note event')
  unwind {halt : Halt} : halt.isUnwinding = true →
    Holds (α := Unit) Eq (Eval.unwind halt) (Eval.unwind halt)
  count (counter : Nat) :
    Holds Eq (Eval.change fun m => { m with hits := m.hits.hit counter })
      (Eval.change fun m => { m with hits := m.hits.hit counter })
  hit (number : Nat) :
    Holds Eq (Eval.change fun m => { m with breakpoints := m.breakpoints.hit number })
      (Eval.change fun m => { m with breakpoints := m.breakpoints.hit number })
  takeInterrupt : Holds Eq (Eval.schedule (·.takeInterrupt)) (Eval.schedule (·.takeInterrupt))
  yieldPoint : Holds Eq (Eval.changeScheduler (·.yieldPoint c.thread))
    (Eval.changeScheduler (·.yieldPoint c.thread))
  suspendIf {reason : StopReason} {location : Location} (b b' : Bool) (d d' : Context) :
    Holds Eq (if b then E.suspend reason location d else Pure.pure ())
      (if b' then E'.suspend reason location d' else Pure.pure ())

namespace Vigil

variable {Holds : {α : Type} → (α → α → Prop) → Eval α → Eval α → Prop} {E E' : Engine}
  {c c' : Context} (V : Vigil Holds E E' c c') {location : Location}

include V

theorem suspend {reason : StopReason} (d d' : Context) :
    Holds Eq (E.suspend reason location d) (E'.suspend reason location d') :=
  V.suspendIf true true d d'

theorem offer {v : Value} {bs : List Breakpoint} (d d' : Context) :
    Holds Eq (E.offer v location d bs) (E'.offer v location d' bs) := by
  induction bs with
  | nil => exact V.pure
  | cons b rest ih =>
    refine V.bindEq V.heap fun h => ?_
    split
    · exact V.bindEq (V.hit b.number) fun _ => V.suspend d d'
    · exact ih

theorem raise {α : Type} {Q : α → α → Prop} {v : Value}
    (hexit : Holds Q (throw (.exit v location)) (throw (.exit v location))) :
    Holds Q (E.raise v location c) (E'.raise v location c') := by
  unfold Engine.raise
  rw [V.onThread]
  refine V.bindEq V.thread fun thread => ?_
  dsimp only
  split
  · exact hexit
  · exact V.bindEq (V.table (·.catchpoints)) fun bs => V.bindEq (V.offer _ _) fun _ => hexit

theorem comeBack (stepping stepping' : Bool) (i i' : Context) :
    Holds Eq (E.comeBack stepping location c i) (E'.comeBack stepping' location c' i') := by
  unfold Engine.comeBack
  rw [V.onThread]
  exact V.bindEq (V.note _ _) fun _ => V.bindEq V.thread fun thread => V.suspendIf _ _ _ _

theorem meetBreakpoint {node : NodeId} (R : Reaction Holds E E' c c') :
    Holds Eq (E.meetBreakpoint node location c) (E'.meetBreakpoint node location c') := by
  refine V.bindEq (V.table (·.at? node)) fun found => ?_
  cases found with
  | none => exact V.pure
  | some b =>
    exact V.bindEq (V.hit b.number) fun _ => R.takeEffect (fun _ _ => trivial) (V.suspend c c')

theorem takeTurn {stopped : Bool} :
    Holds Eq (E.takeTurn stopped location c) (E'.takeTurn stopped location c') := by
  unfold Engine.takeTurn
  rw [V.isRealTime, V.onThread]
  refine V.bindEq V.thread fun thread => ?_
  split
  · split
    · exact V.pure
    · exact V.yieldPoint
  · exact V.suspendIf _ _ _ _

section Node

variable {node : NodeId} (node' : NodeId)
  (hmeet : Holds Eq (E.meetBreakpoint node location c) (E'.meetBreakpoint node' location c'))

include hmeet

theorem obey {request : Interrupt} :
    Holds Eq (E.obey node location c request) (E'.obey node' location c' request) := by
  cases request with
  | none => exact V.bindEq hmeet fun _ => V.takeTurn
  | pause => exact V.suspend c c'
  | terminate => exact V.unwind rfl

theorem check : Holds Eq (E.check node location c) (E'.check node' location c') := by
  unfold Engine.check
  rw [V.onThread]
  refine V.bindEq (V.count _) fun _ => V.bindEq V.thread fun thread => ?_
  split
  · exact V.pure
  · split
    · exact V.unwind rfl
    · exact V.bindEq V.takeInterrupt fun request => V.obey node' hmeet

end Node

end Vigil

end Animator

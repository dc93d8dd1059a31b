import Animator.Proofs.Effect.Write
import Animator.Proofs.Logic.Stmt
import Animator.Proofs.Store.Place

/-!
# Effects

An `Effect` is a property of single evaluations: an invariant of machines, and a relation between
the machine before and after, which may depend on how the evaluation ends. It has to be closed
under the steps that the constructs of the language are made of (`Machine.Step`, `Guard`), and it
has to hold of what the debugger does (`Effect.Leaves`). Then it holds of every evaluation
(`Effect.run`).
-/

namespace Animator

def Halt.of? {α : Type} : Except Halt α → Option Halt
  | .ok _ => none
  | .error halt => some halt

theorem Halt.of?_eq_some {α : Type} {r : Except Halt α} {halt : Halt} :
    Halt.of? r = some halt ↔ r = .error halt := by
  cases r <;> simp [Halt.of?]

def Halt.IsForced : Halt → Prop
  | .cancelled _ | .stopped _ => True
  | _ => False

theorem Halt.IsForced.isUnwinding {halt : Halt} (hh : halt.IsForced) : halt.isUnwinding = true := by
  cases halt with
  | cancelled | stopped => rfl
  | _ => exact hh.elim

theorem Halt.IsForced.isUnwinding_ne_false {halt : Halt} (hh : halt.IsForced) :
    halt.isUnwinding ≠ false := by
  rw [hh.isUnwinding]
  decide

theorem Halt.isUnwinding_eq_false {halt : Halt} (hh : ¬halt.IsForced) (hne : halt ≠ .exhausted) :
    halt.isUnwinding = false := by
  cases halt with
  | cancelled | stopped => exact absurd trivial hh
  | exhausted => exact absurd rfl hne
  | _ => rfl

/-- Two `Outcomes`: values that are related, or the same early end. -/
inductive Outcomes {α : Type} (o : Origin) (Q : α → α → Prop) : Except Halt α → Except Halt α → Prop
  | value {a b : α} : Q a b → Outcomes o Q (.ok a) (.ok b)
  | halt {halt : Halt} : halt.From o → Outcomes o Q (.error halt) (.error halt)

theorem Halt.from_all (halt : Halt) : halt.From .all := by
  cases halt with
  | exit v => exact Value.from_all v
  | _ => trivial

theorem Outcomes.refl_all {α : Type} (r : Except Halt α) : Outcomes .all Eq r r := by
  cases r with
  | ok => exact .value rfl
  | error halt => exact .halt halt.from_all

theorem Outcomes.eq {α : Type} {o : Origin} {r r' : Except Halt α} (h : Outcomes o Eq r r') :
    r = r' := by
  cases h with
  | value hab => rw [hab]
  | halt => rfl

/-! ### Outcomes of two evaluations -/

section Outcome

variable {α β : Type} {x y : Eval α} {m m' m₁ : Machine}

theorem outcome_of_ok {a : α} (hx : x m = (.ok a, m₁)) : x.outcome m = (.ok (.ok a), m₁) := by
  unfold Eval.outcome
  rw [hx]

theorem outcome_of_error {halt : Halt} (hx : x m = (.error halt, m₁)) (hh : halt ≠ .exhausted) :
    x.outcome m = (.ok (.error halt), m₁) := by
  unfold Eval.outcome
  rw [hx]
  cases halt with
  | exhausted => exact absurd rfl hh
  | _ => rfl

theorem outcome_of_exhausted (hx : x m = (.error .exhausted, m₁)) :
    x.outcome m = (.error .exhausted, m₁) := by
  unfold Eval.outcome
  rw [hx]

theorem outcomeOn_of_ok {id : ThreadId} {a : α} (hx : x m = (.ok a, m₁)) :
    x.outcomeOn id m = (.ok (some (.ok a)), m₁) := by
  unfold Eval.outcomeOn
  rw [hx]

theorem outcomeOn_of_error {id : ThreadId} {halt : Halt} (hx : x m = (.error halt, m₁))
    (hh : halt ≠ .exhausted) : x.outcomeOn id m = (.ok (some (.error halt)), m₁) := by
  unfold Eval.outcomeOn
  rw [hx]
  cases halt with
  | exhausted => exact absurd rfl hh
  | _ => rfl

theorem outcomeOn_of_dead {id : ThreadId} (hx : x m = (.error .exhausted, m₁))
    (hdead : m₁.scheduler.isDead id = true) : x.outcomeOn id m = (.ok none, m₁) := by
  unfold Eval.outcomeOn
  rw [hx]
  exact if_pos hdead

theorem outcomeOn_of_exhausted {id : ThreadId} (hx : x m = (.error .exhausted, m₁))
    (hdead : m₁.scheduler.isDead id = false) :
    x.outcomeOn id m = (.error .exhausted, m₁) := by
  unfold Eval.outcomeOn
  rw [hx]
  exact if_neg (hdead ▸ Bool.false_ne_true)

/-- Only a thread that `isDead` has no outcome. -/
theorem isDead_of_outcomeOn {id : ThreadId} (h : x.outcomeOn id m = (.ok none, m₁)) :
    m₁.scheduler.isDead id = true := by
  rcases hx : x m with ⟨halt | a, m₂⟩
  · by_cases hh : halt = .exhausted
    · subst hh
      cases hdead : m₂.scheduler.isDead id with
      | true =>
        cases (outcomeOn_of_dead hx hdead).symm.trans h
        exact hdead
      | false => cases (outcomeOn_of_exhausted hx hdead).symm.trans h
    · cases (outcomeOn_of_error hx hh).symm.trans h
  · cases (outcomeOn_of_ok hx).symm.trans h

theorem bind_outcome_of_error {halt : Halt} {f : Except Halt α → Eval β}
    (hx : x m = (.error halt, m₁)) (hf : f (.error halt) = throw halt) :
    (x.outcome >>= f) m = (.error halt, m₁) := by
  by_cases hh : halt = .exhausted
  · subst hh
    exact bind_of_error (outcome_of_exhausted hx)
  · rw [bind_of_ok (outcome_of_error hx hh), hf]
    rfl

variable {o : Origin} {Q : α → α → Prop}

/-- Two evaluations that go on after `Outcomes`: with values, or not at all. -/
theorem Outcomes.bind_cases (h : Outcomes o Q (x m).1 (y m').1) (f g : α → Eval β) :
    (∃ a b, Q a b ∧ Halt.of? (x m).1 = none ∧ (x >>= f) m = f a (x m).2 ∧
      (y >>= g) m' = g b (y m').2) ∨
    ∃ halt, Halt.From o halt ∧ Halt.of? (x m).1 = some halt ∧
      (x >>= f) m = (.error halt, (x m).2) ∧ (y >>= g) m' = (.error halt, (y m').2) := by
  rcases hx : x m with ⟨r, m₁⟩
  rcases hy : y m' with ⟨r', m₂⟩
  rw [hx, hy] at h
  rcases h with ⟨hab⟩ | ⟨hhalt⟩
  · exact .inl ⟨_, _, hab, rfl, bind_of_ok hx, bind_of_ok hy⟩
  · exact .inr ⟨_, hhalt, rfl, bind_of_error hx, bind_of_error hy⟩

/-- Two evaluations that go on after `Outcomes` of all sorts, unless they `throw` an early end
again. -/
theorem Outcomes.handle_cases (h : Outcomes o Q (x m).1 (y m').1) {f g : Except Halt α → Eval β}
    (hunwinding : ∀ halt, halt.isUnwinding = true →
      f (.error halt) = throw halt ∧ g (.error halt) = throw halt) :
    (∃ a b, Q a b ∧ Halt.of? (x m).1 = none ∧ (x.outcome >>= f) m = f (.ok a) (x m).2 ∧
      (y.outcome >>= g) m' = g (.ok b) (y m').2) ∨
    ∃ halt, Halt.From o halt ∧ Halt.of? (x m).1 = some halt ∧
      (halt.isUnwinding = false ∧ (x.outcome >>= f) m = f (.error halt) (x m).2 ∧
          (y.outcome >>= g) m' = g (.error halt) (y m').2 ∨
        halt.isUnwinding = true ∧ (x.outcome >>= f) m = (.error halt, (x m).2) ∧
          (y.outcome >>= g) m' = (.error halt, (y m').2)) := by
  rcases hx : x m with ⟨r, m₁⟩
  rcases hy : y m' with ⟨r', m₂⟩
  rw [hx, hy] at h
  rcases h with ⟨hab⟩ | ⟨hhalt⟩
  · exact .inl ⟨_, _, hab, rfl, bind_of_ok (outcome_of_ok hx), bind_of_ok (outcome_of_ok hy)⟩
  · next halt =>
    refine .inr ⟨halt, hhalt, rfl, ?_⟩
    cases hh : halt.isUnwinding with
    | false =>
      have hne : halt ≠ .exhausted := by
        rintro rfl
        cases hh
      exact .inl ⟨rfl, bind_of_ok (outcome_of_error hx hne), bind_of_ok (outcome_of_error hy hne)⟩
    | true =>
      obtain ⟨hf, hg⟩ := hunwinding halt hh
      exact .inr ⟨rfl, bind_outcome_of_error hx hf, bind_outcome_of_error hy hg⟩

end Outcome

/-- What is done about the result of an operation given from outside. -/
def Engine.delegated (E : Engine) (args : List Value) (self : Option ObjectRef)
    (location : Location) (c : Context) :
    Option (Except String (Value × Heap × Scheduler)) → Eval (Option Value)
  | none => return none
  | some (.error message) =>
    E.fail .notYetSpecified message location (c.holdAll (self.toList.map .object ++ args))
  | some (.ok (v, heap, scheduler)) => do
    Eval.change fun m => { m with heap, scheduler }
    return some v

theorem Engine.delegate_apply (E : Engine) (owner : String) (operation : Name) (args : List Value)
    (self : Option ObjectRef) (location : Location) (c : Context) (m : Machine) :
    E.delegate owner operation args self location c m =
      E.delegated args self location c (E.program.delegates.invoke m.heap m.scheduler
        { owner, operation, args, self, thread := c.thread }) m :=
  rfl

theorem Engine.callObject_apply (E : Engine) {e : Expr} {c : Context} {m m₁ : Machine}
    {o : ObjectRef} (hobject : E.object e c m = (.ok o, m₁)) (f : Name) (args : List Expr)
    (location : Location) :
    E.stmtKind (.callObject e f args) location c m =
      E.callOn (m.thread c.thread).isStepping o f args location c
        (if e.location.sharesHits location then
          { m₁ with hits := m₁.hits.unhit location.counter } else m₁) := by
  have hthread : Eval.thread c.thread m = (.ok (m.thread c.thread), m) := rfl
  have hunhit : Eval.change (fun m => { m with hits := m.hits.unhit location.counter }) m₁ =
      (.ok (), { m₁ with hits := m₁.hits.unhit location.counter }) := rfl
  change E.callObject e f args location c m = _
  rw [Engine.callObject, bind_of_ok hthread, bind_of_ok hobject]
  split
  · rw [bind_of_ok hunhit]
  · rfl

theorem Engine.callObject_of_error (E : Engine) {e : Expr} {c : Context} {m m₁ : Machine}
    {halt : Halt} (hobject : E.object e c m = (.error halt, m₁)) (f : Name) (args : List Expr)
    (location : Location) : E.stmtKind (.callObject e f args) location c m = (.error halt, m₁) := by
  have hthread : Eval.thread c.thread m = (.ok (m.thread c.thread), m) := rfl
  change E.callObject e f args location c m = _
  rw [Engine.callObject, bind_of_ok hthread, bind_of_error hobject]

/-! ### Time -/

namespace Scheduler

variable {s : Scheduler} {id id' : ThreadId}

theorem record?_modify {f : ThreadRecord → ThreadRecord}
    (hf : ∀ r, (f r).thread.id = r.thread.id) :
    (s.modify id f).record? id' =
      (s.record? id').map fun r => if r.thread.id == id then f r else r := by
  unfold record? modify
  rw [List.find?_map]
  congr 2
  funext r
  simp only [Function.comp_apply]
  split
  · rw [hf]
  · rfl

theorem isTimed_setTimed_false : (s.setTimed id false).isTimed id = false := by
  unfold isTimed setTimed
  rw [record?_modify (f := fun r => { r with timed := false }) fun _ => rfl]
  cases hr : s.record? id with
  | none => rfl
  | some r =>
    -- The record that is found is the one with this number.
    have hid : r.thread.id = id := by simpa using List.find?_some hr
    simp [hid]

end Scheduler

theorem Eval.charge_apply (id : ThreadId) (duration : Nat) (m : Machine) :
    Eval.charge id duration m =
      (if m.scheduler.fits id duration then .ok () else .error .exhausted,
        { m with scheduler := m.scheduler.charge id duration }) := by
  refine (bind_of_ok rfl).trans ((bind_of_ok rfl).trans ?_)
  beta_reduce
  cases m.scheduler.fits id duration <;> rfl

def Engine.Cost.time (cost : Engine.Cost) (amount : Nat) (id : ThreadId) (m : Machine) : Nat :=
  match cost with
  | .cycles => m.scheduler.cyclesToDuration (m.thread id).cpu amount
  | .duration => amount

/-- Execute the body of a timed statement, and let the time pass that it takes. -/
def Engine.spending (E : Engine) (duration : Nat) (body : Stmt) (c : Context) : Eval Value := do
  let flag (on : Bool) (m : Machine) : Machine :=
    { m with scheduler := m.scheduler.setTimed c.thread on }
  let v ← Eval.bracket (flag true) (flag false) (E.stmt body c)
  Eval.charge c.thread duration
  return v

theorem Engine.spend_apply (E : Engine) (cost : Engine.Cost) (amount : Nat) (body : Stmt)
    (c : Context) (m : Machine) :
    E.spend cost amount body c m =
      if m.scheduler.isTimed c.thread then E.stmt body c m
      else E.spending (cost.time amount c.thread m) body c m := by
  refine (bind_of_ok rfl).trans ?_
  by_cases htimed : m.scheduler.isTimed c.thread = true
  · rw [if_pos htimed, if_pos htimed]
  · rw [if_neg htimed, if_neg htimed]
    cases cost <;> exact bind_of_ok rfl

/-! ### Steps -/

/-- Something that is on during a part of an evaluation. -/
inductive Guard where
  | within (s : Section)
  /-- A statement with a fixed cost. -/
  | timed
  deriving DecidableEq

namespace Guard

def enter (g : Guard) (id : ThreadId) (m : Machine) : Machine :=
  match g with
  | .within s => m.modifyThread id (·.enter s)
  | .timed => { m with scheduler := m.scheduler.setTimed id true }

def leave (g : Guard) (id : ThreadId) (m : Machine) : Machine :=
  match g with
  | .within s => m.modifyThread id (·.leave s)
  | .timed => { m with scheduler := m.scheduler.setTimed id false }

/-- A statement with a fixed cost switches its `Guard` on only outside of any other such statement.
-/
def Opens (g : Guard) (id : ThreadId) (m : Machine) : Prop :=
  g = .timed → m.scheduler.isTimed id = false

theorem opens_within (s : Section) (id : ThreadId) (m : Machine) : (within s).Opens id m := by
  intro h
  cases h

theorem within_of_run {α : Type} {s : Section} {id : ThreadId} {x : Eval α} {m m₁ : Machine}
    {r : Except Halt α} (hx : x ((within s).enter id m) = (r, m₁)) :
    Eval.within s id x m = (r, (within s).leave id m₁) := by
  have hrun : Eval.within s id x m = ((x ((within s).enter id m)).1,
    (within s).leave id (x ((within s).enter id m)).2) := rfl
  rw [hrun, hx]

end Guard

/-- What a declaration puts into a new cell: a converted value if it gives an initial value, and nil
if it does not. -/
def Cell.Made (h : Heap) (cell : Cell) : Option Expr → Prop
  | some _ => ∃ v, h.convert cell.ty v = .ok cell.value
  | none => cell.value = .nil

/-- Everything that constructs do to a machine, apart from checks and guards. Only objects that were
made in the course of the evaluation are given members. -/
inductive Machine.Step (P : Program) (o : Origin) (T : ThreadId → Prop) (Made : ObjectRef → Prop)
    (m : Machine) : Machine → Prop where
  | context : Step P o T Made m { m with nextContext := m.nextContext + 1 }
  | newCell (cell : Cell) (init : Option Expr) (hv : cell.value.From o)
      (hdeclares : o.declares init cell.ty) (hmade : cell.Made m.heap init) :
    Step P o T Made m { m with heap := (m.heap.newCell cell).2 }
  | newObject (className : String) :
    Step P o T Made m { m with heap := (m.heap.newObject className).2 }
  | setMember (ref : ObjectRef) (name : Name) (v : Value) (hmade : Made ref) (hv : v.Bound o) :
    Step P o T Made m { m with heap := m.heap.setMember ref name v }
  | store (c : CellId) (path : List Segment) (v : Value) (hv : v.From o) :
    Step P o T Made m { m with heap := (Heap.storeAt c path v m.heap).2 }
  | write (id : ThreadId) (c : CellId) (path : List Segment) (v : Value) (hid : T id)
      (hv : v.From o) : Step P o T Made m (m.wrote P.settings id c path v)
  | unhit (designator : Expr) (location : Location) (he : o.expr designator)
      (hplace : o.Place location) (hshares : designator.location.sharesHits location = true) :
    Step P o T Made m { m with hits := m.hits.unhit location.counter }
  | log (r : LogRecord) (hid : T r.thread) (htime : r.time = m.scheduler.time r.thread)
      (hother : r.isChange = false) : Step P o T Made m { m with log := m.log.push r }
  | delegate (call : DelegateCall) (v : Value) (heap : Heap) (scheduler : Scheduler)
      (hargs : Values.From o call.args)
      (hi : P.delegates.invoke m.heap m.scheduler call = some (.ok (v, heap, scheduler))) :
    Step P o T Made m { m with heap, scheduler }
  | spawn (id : ThreadId) (ref : ObjectRef) (job : Job) (hid : T id) (hjob : job.body.From o) :
    Step P o T Made m (m.spawn ref.text (some ref) (m.scheduler.time id) job).2
  | stop (ref : ObjectRef) : Step P o T Made m { m with scheduler := (m.scheduler.stop ref).2 }
  | called (ref : ObjectRef) (alive : Bool) :
    Step P o T Made m { m with calls := (ref, alive) :: m.calls }

variable {P : Program} {o : Origin} {T : ThreadId → Prop} {Made : ObjectRef → Prop} {m m' : Machine}

/-- A step brings nothing from outside of the origin. -/
theorem Machine.From.step (hm : m.From o) (hP : P.delegates.From o) (hs : m.Step P o T Made m') :
    m'.From o := by
  cases hs with
  | context | unhit | log | called => exact { hm with }
  | newCell cell initial hv => exact { hm with heap := hm.heap.newCell hv }
  | newObject className => exact { hm with heap := hm.heap.newObject className }
  | setMember ref name v _ hv => exact { hm with heap := hm.heap.setMember ref name hv }
  | store c path v hv | write id c path v hid hv =>
    exact { hm with heap := hm.heap.storeAt c path hv }
  | delegate call v heap scheduler hargs hi =>
    have hheap := (hP.invoke hm.heap hargs hi).2
    refine { hm with heap := hheap, waiting := ?_ }
    -- None of the things that a delegate can do starts a thread.
    rcases Delegates.invoke_cases hi with ⟨-, -, rfl⟩ | ⟨-, ⟨-, rfl⟩ | ⟨-, cpu, hz, rfl⟩ | ⟨rfl, -⟩⟩
    all_goals exact hm.waiting
  | spawn id ref job hid hjob =>
    refine { hm with heap := hm.heap.setThread ref _, waiting := ?_ }
    intro w hw
    rcases List.mem_append.1 hw with hw | hw
    · exact hm.waiting w hw
    · rw [List.mem_singleton.1 hw]
      exact hjob
  | stop ref =>
    refine { hm with waiting := ?_ }
    dsimp only [Scheduler.stop]
    split <;> exact hm.waiting

theorem Guard.from_enter (g : Guard) {id : ThreadId} (hm : m.From o) : (g.enter id m).From o := by
  cases g <;> exact { hm with }

theorem Guard.from_leave (g : Guard) (id : ThreadId) (hm : m.From o) : (g.leave id m).From o := by
  cases g <;> exact { hm with }

theorem Context.From.holdOutcome {c : Context} (hc : c.From o) (outcome : Outcome) :
    (Engine.holdOutcome c outcome).From o ∧ (Engine.holdOutcome c outcome).thread = c.thread := by
  unfold Engine.holdOutcome
  split
  · exact ⟨hc.holdAll [_], rfl⟩
  · exact ⟨hc.holdAll [_], rfl⟩
  · exact ⟨hc, rfl⟩

/-- Contexts on some threads that belong to a region: what is held or bound does not matter, and the
`scopes` inside of a context belong to the region as well, so that evaluations never leave it. -/
class Region (T : ThreadId → Prop) (R : Context → Prop) : Prop where
  thread {c : Context} : R c → T c.thread
  holdAll {c : Context} (values : List Value) : R c → R (c.holdAll values)
  bindAll {c : Context} (matched : List (Name × Value)) : R c → R (c.bindAll matched)
  nest {c : Context} (s : Scope) : R c → R { c with inner := s, outer := c.scopes }

/-- All contexts on some threads. -/
instance : Region T fun c => T c.thread :=
  ⟨id, fun _ => id, fun _ => id, fun _ => id⟩

theorem Region.holdOutcome (T : ThreadId → Prop) {R : Context → Prop} [Region T R] {c : Context}
    (outcome : Outcome) (hr : R c) : R (Engine.holdOutcome c outcome) := by
  unfold Engine.holdOutcome
  split
  · exact Region.holdAll T [_] hr
  · exact Region.holdAll T [_] hr
  · exact hr

/-- A property of single evaluations on some threads. -/
structure Effect (P : Program) (o : Origin) (T : ThreadId → Prop) where
  /-- What machines have before and after every evaluation. -/
  Inv : Machine → Prop
  /-- How the machine before is related to the machine after, given how the evaluation ended. -/
  Rel : Machine → Option Halt → Machine → Prop
  /-- The objects that are made in the course of evaluations. -/
  Made : ObjectRef → Prop := fun _ => True
  /-- The guards that may be switched on: all of the model, and perhaps that of the debugger. -/
  Allows : Guard → Prop := fun _ => True
  /-- The operations given from outside bring nothing from outside of the origin. -/
  delegates : P.delegates.From o
  refl {m : Machine} : Inv m → Rel m none m
  ends {m : Machine} {halt : Halt} : Inv m → (halt.isUnwinding = false ∨ halt = .exhausted) →
    Rel m (some halt) m
  trans {m m₁ m₂ : Machine} {r : Option Halt} : Inv m → Rel m none m₁ → Rel m₁ r m₂ → Rel m r m₂
  recover {m m' : Machine} {halt : Halt} : Rel m (some halt) m' → halt.isUnwinding = false →
    Rel m none m'
  step {m m' : Machine} : Inv m → m.Step P o T Made m' → Inv m' ∧ Rel m none m'
  makes {m : Machine} (className : String) : Inv m → Made (m.heap.newObject className).1 := by
    exact fun _ _ => trivial
  allows {g : Guard} : g ≠ .within .debugging → Allows g := by exact fun _ => trivial
  enter {m : Machine} (g : Guard) {id : ThreadId} : Allows g → T id → Inv m → Inv (g.enter id m)
  leave {m m' : Machine} {r : Option Halt} (g : Guard) {id : ThreadId} : Allows g → T id →
    g.Opens id m → Inv m → Rel (g.enter id m) r m' → Inv m' →
    Inv (g.leave id m') ∧ Rel m r (g.leave id m')

namespace Effect

variable (F : Effect P o T) {α β : Type} {Q : α → α → Prop} {R : β → β → Prop}

/-- What an effect says of two evaluations that began with a machine, and that do the same to it. -/
structure Post (Q : α → α → Prop) (m : Machine) (out out' : Except Halt α × Machine) : Prop where
  machine : out'.2 = out.2
  /-- It holds nothing from outside of the `origin`. -/
  origin : out.2.From o
  inv : F.Inv out.2
  rel : F.Rel m (Halt.of? out.1) out.2
  outcomes : Outcomes o Q out.1 out'.1

/-- Two evaluations that do the same to a machine, to which the effect applies. -/
def Holds (Q : α → α → Prop) (x y : Eval α) : Prop :=
  ∀ m, m.From o → F.Inv m → F.Post Q m (x m) (y m)

/-- An evaluation to which the effect applies. -/
abbrev Does (Q : α → α → Prop) (x : Eval α) : Prop :=
  F.Holds Q x x

/-- One context of a region. -/
def CtxIn (_ : Effect P o T) (R : Context → Prop) (c c' : Context) : Prop :=
  c = c' ∧ c.From o ∧ R c

def Ctx : Context → Context → Prop :=
  F.CtxIn fun c => T c.thread

variable {F} {x y : Eval α}

theorem Post.pure {a b : α} (hab : Q a b) (hm : m.From o) (hi : F.Inv m) :
    F.Post Q m (.ok a, m) (.ok b, m) :=
  ⟨rfl, hm, hi, F.refl hi, .value hab⟩

theorem Post.throw {halt : Halt} (hh : halt.isUnwinding = false ∨ halt = .exhausted)
    (hfrom : halt.From o) (hm : m.From o) (hi : F.Inv m) :
    F.Post Q m (.error halt, m) (.error halt, m) :=
  ⟨rfl, hm, hi, F.ends hi hh, .halt hfrom⟩

theorem Post.step {a b : α} (hab : Q a b) (hm : m.From o) (hi : F.Inv m)
    (hs : m.Step P o T F.Made m') : F.Post Q m (.ok a, m') (.ok b, m') :=
  ⟨rfl, hm.step F.delegates hs, (F.step hi hs).1, (F.step hi hs).2, .value hab⟩

theorem Post.bind {f g : α → Eval β} {m₀ : Machine} (hi : F.Inv m₀)
    (hpost : F.Post Q m₀ (x m) (y m))
    (hf : ∀ a b, Q a b → F.Post R (x m).2 (f a (x m).2) (g b (x m).2)) :
    F.Post R m₀ ((x >>= f) m) ((y >>= g) m) := by
  have hrel := hpost.rel
  rcases hpost.outcomes.bind_cases f g with
    ⟨a, b, hab, hhalt, hrun, hrun'⟩ | ⟨halt, hfrom, hhalt, hrun, hrun'⟩
  · have hpost' := hf a b hab
    rw [hhalt] at hrel
    rw [hrun, hrun', hpost.machine]
    exact { hpost' with rel := F.trans hi hrel hpost'.rel }
  · rw [hhalt] at hrel
    rw [hrun, hrun']
    exact ⟨hpost.machine, hpost.origin, hpost.inv, hrel, .halt hfrom⟩

theorem Post.guard {g : Guard} (hg : F.Allows g) {id : ThreadId} (hid : T id)
    (hopens : g.Opens id m) (hx : F.Holds Q x y) (hm : m.From o) (hi : F.Inv m) :
    F.Post Q m (Eval.bracket (g.enter id) (g.leave id) x m)
      (Eval.bracket (g.enter id) (g.leave id) y m) := by
  have hpost := hx (g.enter id m) (g.from_enter hm) (F.enter g hg hid hi)
  obtain ⟨hinv, hrel⟩ := F.leave g hg hid hopens hi hpost.rel hpost.inv
  exact ⟨congrArg (g.leave id) hpost.machine, g.from_leave id hpost.origin, hinv, hrel,
    hpost.outcomes⟩

namespace Holds

theorem pure {a b : α} (hab : Q a b) : F.Holds Q (Pure.pure a) (Pure.pure b) :=
  fun _ hm hi => Post.pure hab hm hi

theorem bind {f g : α → Eval β} (hx : F.Holds Q x y)
    (hf : ∀ a b, Q a b → F.Holds R (f a) (g b)) : F.Holds R (x >>= f) (y >>= g) := by
  intro m hm hi
  have hpost := hx m hm hi
  exact .bind hi hpost fun a b hab => hf a b hab _ hpost.origin hpost.inv

theorem bindEq {f g : α → Eval β} (hx : F.Holds Eq x y) (hf : ∀ a, F.Holds R (f a) (g a)) :
    F.Holds R (x >>= f) (y >>= g) := by
  refine .bind hx ?_
  rintro a _ rfl
  exact hf a

theorem reads {f g : Machine → α} (hQ : ∀ m, m.From o → F.Inv m → Q (f m) (g m)) :
    F.Holds Q (Eval.reads f) (Eval.reads g) :=
  fun m hm hi => Post.pure (hQ m hm hi) hm hi

theorem change {f : Machine → Machine} (hs : ∀ m : Machine, m.Step P o T F.Made (f m)) :
    F.Does Eq (Eval.change f) :=
  fun m hm hi => Post.step rfl hm hi (hs m)

theorem within {s : Section} (hs : F.Allows (.within s)) {id : ThreadId} (hid : T id)
    (hx : F.Holds Q x y) :
    F.Holds Q (Eval.within s id x) (Eval.within s id y) :=
  fun m hm hi => .guard hs hid (Guard.opens_within s id m) hx hm hi

/-- An evaluation whose early ends are handled (`handle`), as long as no handler is passed over. -/
theorem handle {f g : Except Halt α → Eval β} (hx : F.Holds Q x y)
    (hok : ∀ a b, Q a b → F.Holds R (f (.ok a)) (g (.ok b)))
    (herror : ∀ halt, halt.isUnwinding = false → halt.From o →
      F.Holds R (f (.error halt)) (g (.error halt)))
    (hunwinding : ∀ halt, halt.isUnwinding = true →
      f (.error halt) = throw halt ∧ g (.error halt) = throw halt) :
    F.Holds R (x.outcome >>= f) (y.outcome >>= g) := by
  intro m hm hi
  have hpost := hx m hm hi
  have hrel := hpost.rel
  rcases hpost.outcomes.handle_cases hunwinding with
    ⟨a, b, hab, hhalt, hrun, hrun'⟩ | ⟨halt, hfrom, hhalt, ⟨hh, hrun, hrun'⟩ | ⟨-, hrun, hrun'⟩⟩
  · have hpost' := hok a b hab _ hpost.origin hpost.inv
    rw [hhalt] at hrel
    rw [hrun, hrun', hpost.machine]
    exact { hpost' with rel := F.trans hi hrel hpost'.rel }
  · have hpost' := herror halt hh hfrom _ hpost.origin hpost.inv
    rw [hhalt] at hrel
    rw [hrun, hrun', hpost.machine]
    -- The handler goes on, as if the part before it had come to its end.
    exact { hpost' with rel := F.trans hi (F.recover hrel hh) hpost'.rel }
  · rw [hhalt] at hrel
    rw [hrun, hrun']
    exact ⟨hpost.machine, hpost.origin, hpost.inv, hrel, .halt hfrom⟩

end Holds

variable (F)

/-- The effect holds of the expressions and statements of an `Engine`. -/
structure Sound (E : Engine) (R : Context → Prop := fun c => T c.thread) : Prop where
  program : E.program = P
  expr {e : Expr} {c : Context} : o.expr e → c.From o → R c →
    F.Does (Same (·.From o)) (E.expr e c)
  stmt {s : Stmt} {c : Context} : o.stmt s → c.From o → R c →
    F.Does (Same (·.From o)) (E.stmt s c)

/-- The effect holds also of what the debugger does. -/
structure Leaves (E : Engine) (R : Context → Prop := fun c => T c.thread) : Prop extends
    F.Sound E R where
  arrive {node : Node} {c : Context} : o.node node → c.From o → R c →
    F.Does Eq (do Eval.note (.visit node); E.check node.id node.location c)
  fail {α : Type} {Q : α → α → Prop} {code : Code} {message : String} {location : Location}
    {c : Context} : c.From o → R c →
    F.Does Q (E.fail code message location c)
  raise {α : Type} {Q : α → α → Prop} {v : Value} {location : Location} {c : Context} : v.From o →
    c.From o → R c → F.Does Q (E.raise v location c)
  comeBack {t : Thread} {location : Location} {c i : Context} : c.From o → R c → i.From o →
    R i →
    F.Does Eq (E.comeBack t.isStepping location c i)

/-- The effect holds of time that passes while a thread is in no statement with a fixed cost. -/
class Charges : Prop where
  charge {m : Machine} {id : ThreadId} (duration : Nat) : T id → F.Inv m →
    m.scheduler.isTimed id = false →
    F.Inv { m with scheduler := m.scheduler.charge id duration } ∧
      F.Rel m none { m with scheduler := m.scheduler.charge id duration }

variable {F} {E : Engine}

/-- The time passes, or else the thread dies with the `charge`. -/
theorem Post.charge [F.Charges] {m : Machine} {id : ThreadId} (duration : Nat) (ht : T id)
    (hm : m.From o) (hi : F.Inv m) (htimed : m.scheduler.isTimed id = false) :
    F.Post Eq m (Eval.charge id duration m) (Eval.charge id duration m) := by
  obtain ⟨hinv, hrel⟩ := Charges.charge (F := F) duration ht hi htimed
  rw [Eval.charge_apply]
  split
  · exact ⟨rfl, { hm with }, hinv, hrel, .value rfl⟩
  · exact ⟨rfl, { hm with }, hinv, F.trans hi hrel (F.ends hinv (.inr rfl)), .halt trivial⟩

theorem holds_scope {Q : Context → Context → Prop} {f : ContextId → Context}
    (hf : ∀ id, Q (f id) (f id)) :
    F.Does Q (do return f (← Eval.freshContext)) :=
  fun m hm hi => Post.step (hf m.nextContext) hm hi .context

section Leaves

variable {R : Context → Prop} [Region T R] (L : F.Leaves E R) {location : Location} {c : Context}
  (hc : c.From o) (hr : R c)

include L hc hr

theorem holds_delegate {owner : String} {operation : Name} {args : List Value}
    {self : Option ObjectRef} (hargs : Values.From o args) :
    F.Does (Same (Option.Every (·.From o))) (E.delegate owner operation args self location c) := by
  intro m hm hi
  let call : DelegateCall := { owner, operation, args, self, thread := c.thread }
  -- The step that is taken depends on what is found, so the machine has to be known first.
  rw [E.delegate_apply, L.program]
  cases hinvoke : P.delegates.invoke m.heap m.scheduler call with
  | none => exact Post.pure ⟨rfl, nofun⟩ hm hi
  | some result =>
    rcases result with message | ⟨v, heap, scheduler⟩
    · exact L.fail (hc.holdAll _) (Region.holdAll T _ hr) m hm hi
    · have hv := (F.delegates.invoke hm.heap hargs hinvoke).1
      refine Post.step ⟨rfl, ?_⟩ hm hi (.delegate call v heap scheduler hargs hinvoke)
      exact fun w hw => Option.some.inj hw ▸ hv

/-- A new variable has the type that it is declared with. -/
theorem holds_newVariable {init : Option Expr} {ty : Ty} {owner : Option CellOwner}
    (hinit : ∀ e, init = some e → o.expr e) (hdeclares : o.declares init ty) :
    F.Does (Same (·.Bound o)) (E.newVariable init ty owner location c) := by
  cases init with
  | none =>
    exact fun m hm hi =>
      Post.step ⟨rfl, Value.bound_updatable _⟩ hm hi (.newCell _ none trivial hdeclares rfl)
  | some e =>
    unfold Engine.newVariable Engine.initialValue
    rw [bind_assoc]
    refine .bind (L.expr (hinit e rfl) hc hr) ?_
    rintro v _ ⟨rfl, hv⟩ m hm hi
    -- The value is converted on the heap that the cell is made on, so it has to be known first.
    cases hw : m.heap.convert ty v with
    | error fault =>
      have hfail : E.consultHeap (·.convert ty v) location (c.hold v) m =
          E.fail fault.code fault.message location (c.hold v) m :=
        congrArg (fun result => E.lift result location (c.hold v) m) hw
      refine .bind (Q := fun _ _ => False) hi ?_ fun _ _ hfalse => hfalse.elim
      rw [hfail]
      exact L.fail (hc.holdAll [v]) (Region.holdAll T _ hr) m hm hi
    | ok w =>
      have hconverted : E.consultHeap (·.convert ty v) location (c.hold v) m = (.ok w, m) :=
        congrArg (fun result => E.lift result location (c.hold v) m) hw
      rw [bind_of_ok hconverted]
      exact Post.step ⟨rfl, Value.bound_updatable _⟩ hm hi
        (.newCell _ (some e) (hm.heap.convert ty hv.bound hw) hdeclares ⟨v, hw⟩)

omit [Region T R] in
theorem holds_store {cell : CellId} {path : List Segment} {v : Value} (hv : v.From o) :
    F.Does Eq (E.updateHeap (Heap.storeAt cell path v) location c) := by
  refine .bindEq (fun m hm hi => Post.step rfl hm hi (.store cell path v hv)) fun result => ?_
  cases result with
  | ok a => exact .pure rfl
  | error fault => exact L.fail hc hr

omit hc in
theorem holds_write {i : Context} (hi : i.From o) (hri : R i) {cell : CellId}
    {path : List Segment} {v : Value} (hv : v.From o) :
    F.Does Eq (E.write cell path v location i c) := by
  have hlift : ∀ result : Except ValueFault Unit,
      F.Does Eq (E.lift result location i) := by
    intro result
    cases result with
    | ok a => exact .pure rfl
    | error fault => exact L.fail hi hri
  intro m hm hinv
  have hstep : m.Step P o T F.Made (m.wrote P.settings c.thread cell path v) :=
    .write c.thread cell path v (Region.thread hr) hv
  obtain ⟨hinv', hrel⟩ := F.step hinv hstep
  have hpost := hlift (Heap.storeAt cell path v m.heap).1 _
    (hm.step F.delegates hstep) hinv'
  rw [Engine.write_apply, Engine.settings, L.program]
  exact { hpost with rel := F.trans hinv hrel hpost.rel }

theorem holds_spend [F.Charges] {cost : Engine.Cost} {amount : Nat} {body : Stmt}
    (hbody : o.stmt body) :
    F.Does (Same (·.From o)) (E.spend cost amount body c) := by
  intro m hm hi
  rw [E.spend_apply]
  cases htimed : m.scheduler.isTimed c.thread with
  | true => exact L.stmt hbody hc hr m hm hi
  | false =>
    have ht : T c.thread := Region.thread hr
    have hran := Post.guard (g := .timed) (F.allows (by decide)) ht (fun _ => htimed)
      (L.stmt hbody hc hr) hm hi
    refine .bind hi hran ?_
    rintro v _ ⟨rfl, hv⟩
    -- The guard has just been switched off, so the thread is in no such statement.
    have hcharged := Post.charge (cost.time amount c.thread m) ht hran.origin hran.inv
      Scheduler.isTimed_setTimed_false
    exact .bind hran.inv hcharged fun _ _ _ => .pure ⟨rfl, hv⟩ hcharged.origin hcharged.inv

end Leaves

variable {R : Context → Prop} [Region T R]

/-- An effect is a `logic`, the two runs being one. -/
def logic (L : F.Leaves E R) : Logic o E E where
  Holds := F.Holds
  Ctx := F.CtxIn R
  Threads := Eq
  Halts halt halt' := halt' = halt
  Made := F.Made
  engines := .refl E
  expr he hc := hc.1 ▸ L.expr he hc.2.1 hc.2.2
  stmt hs hc := hc.1 ▸ L.stmt hs hc.2.1 hc.2.2
  alike := by
    rintro c _ ⟨rfl, hc, -⟩
    exact ⟨rfl, rfl, rfl, fun _ hr => hc.routine? hr, rfl, hc.visible, rfl⟩
  holdAll values hc := ⟨by rw [hc.1], hc.2.1.holdAll values, Region.holdAll T values hc.2.2⟩
  bindAll hc hm := ⟨by rw [hc.1], hc.2.1.bindAll hm, Region.bindAll T _ hc.2.2⟩
  derive := by
    rintro c _ title location ⟨rfl, hc, hr⟩
    exact holds_scope fun id =>
      ⟨rfl, hc.nest ⟨by simp [Bindings.From], nofun⟩, Region.nest T _ hr⟩
  frame := by
    rintro c _ root title location ⟨rfl, hc, hr⟩ hroot
    refine holds_scope fun id => ⟨rfl, hc.nest ⟨by simp [Bindings.From], ?_⟩, Region.nest T _ hr⟩
    exact fun r hr => Option.some.inj hr ▸ hroot
  pure := .pure
  bind := .bind
  fail hc := hc.1 ▸ L.fail hc.2.1 hc.2.2
  raise hc hv := hc.1 ▸ L.raise hv hc.2.1 hc.2.2
  exhausted _ hm hi := Post.throw (.inr rfl) trivial hm hi
  cutOff hne := absurd rfl hne
  isUnwinding hh := by rw [hh]
  holdOutcome := by
    rintro c _ _ halt ⟨rfl, hc, hr⟩ rfl
    exact ⟨rfl, (hc.holdOutcome (.error halt)).1, Region.holdOutcome T (.error halt) hr⟩
  rethrow hhalts hh hfrom _ hm hi := hhalts.symm ▸ Post.throw (.inl hh) hfrom hm hi
  handle hx hok herror := .handle hx hok fun halt => herror halt halt rfl
  heap := .reads fun m hm _ => ⟨rfl, hm.heap⟩
  lookup := by
    rintro c _ name ⟨rfl, hc, -⟩
    exact .reads fun m hm _ => ⟨rfl, fun v hv => hc.lookup hm.globals hm.heap hv⟩
  classScope := .reads fun m hm _ => ⟨rfl, fun s hs => hm.globals.class? hs⟩
  timeLimit := .reads fun _ _ _ => rfl
  time hc := .reads fun _ _ _ => by rw [hc.1]
  living := by
    rintro c _ self ⟨rfl, -⟩
    cases self with
    | none => exact .pure rfl
    | some ref =>
      refine .bindEq (.reads fun _ _ _ => rfl) fun alive => ?_
      exact .bindEq (.change fun _ => .called ref alive) fun _ => .pure rfl
  routineKind := .reads fun _ _ _ => rfl
  thread hc := .reads fun _ _ _ => by rw [hc.1]
  newVariable hinit hdeclares hc := hc.1 ▸ holds_newVariable L hc.2.1 hc.2.2 hinit hdeclares
  newObject _ hm hi := Post.step ⟨rfl, F.makes _ hi⟩ hm hi (.newObject _)
  setMember hmade hv := .change fun _ => .setMember _ _ _ hmade hv
  write := by
    rintro c _ i _ cell path v location ⟨rfl, hi, hri⟩ ⟨rfl, hc, hr⟩ hv
    exact holds_write L hr hi hri hv
  unhit he hplace hshares := .change fun _ => .unhit _ _ he hplace hshares
  delegate hc hargs := hc.1 ▸ holds_delegate L hc.2.1 hc.2.2 hargs
  spawn hc hjob := hc.1 ▸ .change fun _ => .spawn _ _ _ (Region.thread hc.2.2) hjob
  stop _ hm hi := Post.step rfl hm hi (.stop _)
  within hs hc hx := hc.1 ▸ .within (F.allows (by simpa using hs)) (Region.thread hc.2.2) hx
  comeBack := by
    rintro c _ i _ t _ location ⟨rfl, hc, hr⟩ ⟨rfl, hi, hri⟩ rfl
    exact L.comeBack hc hr hi hri
  arrive hn hc := hc.1 ▸ L.arrive hn hc.2.1 hc.2.2

theorem spends [F.Charges] (L : F.Leaves E R) : (logic L).Spends :=
  fun hbody hc => hc.1 ▸ holds_spend L hc.2.1 hc.2.2 hbody

theorem faithful (L : F.Leaves E R) : (logic L).Faithful :=
  fun hh => hh

theorem run_engine [F.Charges] (hclosed : o.Closed)
    (hleaves : ∀ n, F.Sound (P.engine n) R → F.Leaves (P.engine n) R) (n : Nat) :
    F.Sound (P.engine n) R := by
  induction n with
  | zero => exact ⟨rfl, fun _ _ _ _ hm hi => Post.throw (.inr rfl) trivial hm hi,
      fun _ _ _ _ hm hi => Post.throw (.inr rfl) trivial hm hi⟩
  | succ n ih =>
    refine ⟨rfl, fun he hc hr => ?_, fun hs hc hr => ?_⟩
    · exact (logic (hleaves n ih)).evalExpr ⟨rfl, hc, hr⟩ he (hclosed.expr _ he)
    · exact (logic (hleaves n ih)).evalStmt ⟨rfl, hc, hr⟩ (fun _ => spends _) (fun _ => faithful _)
        hs (hclosed.stmt _ hs)

theorem run [F.Charges] (hclosed : o.Closed) (hleaves : ∀ E, F.Sound E R → F.Leaves E R) (n : Nat) :
    F.Sound (P.engine n) R :=
  run_engine hclosed (fun n => hleaves (P.engine n)) n

end Effect

end Animator

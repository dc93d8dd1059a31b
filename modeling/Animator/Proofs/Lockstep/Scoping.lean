import Animator.Proofs.Lockstep.Basic

/-!
# Static scoping

The frame of a call keeps the scopes of its caller, for the call stack. Nothing that runs in the
frame can see them, except that they keep objects alive: a routine of an object runs on that object
only as long as the object lives. So two calls from different contexts go in lockstep, unless a
routine is called whose object is alive in one of them only (`static_scoping`); and objects do
depend on the caller in this way (`callee_sees_held_objects`).
-/

namespace Animator

/-- After the same calls, a routine was called whose object was alive in one machine and not in the
other. -/
def Machine.Parted (m m' : Machine) : Prop :=
  ∃ ref alive before, (ref, alive) :: before <:+ m.calls ∧ (ref, !alive) :: before <:+ m'.calls

theorem Machine.Parted.grows {m m' m₁ m₁' : Machine} (h : m.Parted m') (hm : m.Grows m₁)
    (hm' : m'.Grows m₁') : m₁.Parted m₁' := by
  obtain ⟨ref, alive, before, hcalls, hcalls'⟩ := h
  exact ⟨ref, alive, before, hcalls.trans hm.calls, hcalls'.trans hm'.calls⟩

theorem Machine.Parted.of_ne {m m' : Machine} {ref : ObjectRef} {alive alive' : Bool}
    (hcalls : m.calls = m'.calls) (hne : alive ≠ alive') :
    Machine.Parted { m with calls := (ref, alive) :: m.calls }
      { m' with calls := (ref, alive') :: m'.calls } := by
  have hflip : alive' = !alive := by cases alive <;> cases alive' <;> simp_all
  refine ⟨ref, alive, m.calls, List.suffix_rfl, ?_⟩
  simp only [hflip, hcalls, List.suffix_rfl]

namespace Pairing

/-- Two evaluations from contexts that hold the same nodes at some `Level` only. -/
def parting (P : Program) (level : Prop) : Pairing P where
  exceptions := P.settings.exceptions
  Level := level
  Bare := False
  Apart m m' := m.Parted m' ∧ ¬level
  mode hon := hon
  bare hne := absurd rfl hne
  grows hapart hm hm' := ⟨hapart.1.grows hm hm', hapart.2⟩
  living hlevel hcalls hne := ⟨.of_ne hcalls hne, hlevel⟩
  handled hne := absurd rfl hne

/-- Two calls of the same routine, from different contexts. -/
def callers (P : Program) (c c' : Context) : Pairing P where
  exceptions := P.settings.exceptions
  Level := ∀ node, c.holds node = c'.holds node
  Bare := False
  Apart m m' := m.Parted m' ∧ ∃ node, c.holds node ≠ c'.holds node
  mode hon := hon
  bare hne := absurd rfl hne
  grows hapart hm hm' := ⟨hapart.1.grows hm hm', hapart.2⟩
  living hlevel hcalls hne := ⟨.of_ne hcalls hne, Classical.not_forall.1 hlevel⟩
  handled hne := absurd rfl hne

/-- Contexts can be called from, if they belong to the same thread, show the same `title` in error
messages, and hold the same nodes at the `Level` of the comparison. -/
theorem calls {P : Program} (D : Pairing P) {c c' : Context} {n : Nat}
    (hthread : c'.thread = c.thread) (htitle : c.rootOf.inner.title = c'.rootOf.inner.title)
    (hlevel : D.Level → ∀ node, c.holds node = c'.holds node) : (D.engine n).logic.Calls c c' := by
  have hholds : ∀ values, D.Level → ∀ node,
      (c.holdAll values).holds node = (c'.holdAll values).holds node := by
    intro values h node
    have hmore : ∀ c : Context, (c.holdAll values).holds node =
        (values.any (·.refersTo node) || c.holds node) := by
      intro c
      simp only [Context.holds, Context.holdAll, Context.scopes, List.any_append, Bool.or_assoc]
    rw [hmore, hmore, hlevel h node]
  constructor
  case fail =>
    intro α Q code message location values
    exact .fail rfl rfl hthread htitle
  case living =>
    intro self values
    exact (D.engine n).living (hholds values)
  case frame =>
    -- The callers are outside of the new root.
    intro root title location values _
    exact .act {} (fun _ _ => rfl) fun _ => Context.akin_frame hthread rfl (hholds values)
  case within =>
    intro α Q s x y _ hx
    unfold Eval.within
    rw [hthread]
    exact .guard (.within s) _ hx

theorem callers_calls {P : Program} {c c' : Context} {n : Nat} (hthread : c'.thread = c.thread)
    (htitle : c.rootOf.inner.title = c'.rootOf.inner.title) :
    ((callers P c c').engine n).logic.Calls c c' :=
  (callers P c c').calls hthread htitle fun hlevel => hlevel

end Pairing

/-- A call (`apply`) from one context and from another one, in the same state of the machine: a
function, an operation, or anything else that is applied to arguments. If no debugger is attached,
then it has the same outcome in both, and it leaves the same machine, but for the history
(`Agrees`). There is one exception: a routine of an object may have been called that was alive in
one of them only (`Parted`). Then the contexts hold different objects. -/
theorem static_scoping (P : Program) (bound : Nat) (callee : Value) (args : List Value)
    (location : Location) (c c' : Context) (m : Machine) (hthread : c'.thread = c.thread)
    (htitle : c.rootOf.inner.title = c'.rootOf.inner.title) (hlink : m.link = none) :
    let out := (P.engine bound).apply callee args location c m
    let out' := (P.engine bound).apply callee args location c' m
    out'.1 = out.1 ∧ out.2.Agrees out'.2 ∨
      out.2.Parted out'.2 ∧ ∃ node, c.holds node ≠ c'.holds node := by
  intro out out'
  let D := Pairing.callers P c c'
  have hcalls := Pairing.callers_calls (P := P) (n := bound) hthread htitle
  have happly : D.Holds Eq ((P.engine bound).apply callee args location c)
      ((P.engine bound).apply callee args location c') :=
    Pairing.Holds.eq_of_same ((D.engine bound).logic.apply hcalls (Value.from_all callee).bound
      (Values.from_all args))
  have hlinked : D.Linked m m := .refl ⟨hlink, False.elim⟩
  refine (happly.both hlinked).imp_left fun hboth => ?_
  exact ⟨hboth.1.eq_of_same rfl, hboth.2.eq⟩

def deskName (module text : String) : Name :=
  { module, text }

def lampClass : ClassDef :=
  { name := "Lamp", location := .onLine 1
    values := [], functions := [], invariants := [], thread := none
    instanceVars := [{
      name := deskName "Lamp" "light", ty := .nat, isStatic := false, location := .onLine 2
      init := some (.onLine 2 (.literal (.int 7))) }]
    operations := [{
      OperationDef.plain "Lamp" "look"
        (.onLine 3 (.return (some (.onLine 3 (.name (deskName "Lamp" "light")))))) with
      result := .unknown }] }

/-- The lamp is taken from the desk, between finding out how to look at it and looking at it. -/
def deskGlance : OperationDef :=
  let look := deskName "Desk" "look"
  let lamp := deskName "Desk" "lamp"
  let body : List Stmt :=
    [.onLine 6 (.assign ⟨.name lamp, .onLine 6 (.literal .nil), .onLine 6⟩),
     .onLine 7 (.return (some (.onLine 7 (.apply (.onLine 7 (.name look)) []))))]
  { OperationDef.plain "Desk" "glance"
      (.onLine 4 (.letIn
        [⟨.onLine 5, .value ⟨.onLine 5, .ident look⟩ none
          (.onLine 5 (.field (.onLine 5 (.name lamp)) (deskName "Lamp" "look")))⟩]
        (.onLine 6 (.block [] body)))) with
    result := .unknown }

def deskProgram : Program :=
  { model := {
      classes := [lampClass]
      modules := [{
        name := "Desk", location := .onLine 9, values := [], functions := []
        state := some { name := "S", location := .onLine 9, fields := [{
          name := deskName "Desk" "lamp", ty := .unknown
          init := some (.onLine 9 (.new "Lamp" [])) }] }
        operations := [deskGlance] }] } }

def deskMachine : Machine :=
  ((deskProgram.engine 20).initialise (Machine.initial deskProgram {})).2

def deskLamp : Value :=
  .object ⟨1, "Lamp"⟩

def deskCaller (bindings : Bindings) : Context :=
  { inner := {
      id := 0, title := "Desk", location := .onLine 9, root := some { kind := .global }, bindings }
    thread := mainThread }

def deskCall (c : Context) : Outcome × Machine :=
  (deskProgram.engine 20).apply
    (.operation { definition := deskGlance, className := none, self := none }) [] (.onLine 9) c
    deskMachine

/-- Two callers that hold the `deskLamp`. The second one has names that the operations use as well,
and they make no difference. -/
theorem static_scoping_desk :
    let c := deskCaller [(deskName "Desk" "mine", deskLamp)]
    let c' := deskCaller [(deskName "Desk" "look", deskLamp), (deskName "Lamp" "light", .int 3)]
    c'.thread = c.thread ∧ c.rootOf.inner.title = c'.rootOf.inner.title ∧ deskMachine.link = none ∧
      (deskCall c').1 = (deskCall c).1 ∧
      (deskCall c).1.toOption.map (deskCall c).2.heap.text = some "7" := by
  intro c c'
  have hlink : deskMachine.link = none := by decide +kernel
  have hholds : ∀ node, c.holds node = c'.holds node := by
    intro node
    simp [c, c', Context.holds, Context.scopes, deskCaller, Scope.values, Value.refersTo,
      Value.references]
  refine ⟨rfl, rfl, hlink, ?_, by decide +kernel⟩
  rcases static_scoping deskProgram 20
    (.operation { definition := deskGlance, className := none, self := none }) [] (.onLine 9) c c'
    deskMachine rfl rfl hlink with ⟨hsame, -⟩ | ⟨-, node, hnode⟩
  · exact hsame
  · exact absurd (hholds node) hnode

/-- But calls from different contexts can have different outcomes. While a `deskCaller` holds the
lamp, it can be looked at after it was taken from the desk. Otherwise it is gone, and so are its
variables. -/
theorem callee_sees_held_objects :
    let c := deskCaller [(deskName "Desk" "mine", deskLamp)]
    let c' := deskCaller []
    c'.thread = c.thread ∧ c.rootOf.inner.title = c'.rootOf.inner.title ∧ deskMachine.link = none ∧
      deskMachine.scheduler.interrupt = .none ∧ (deskMachine.thread c.thread).step = {} ∧
      (deskCall c).1.toOption.map (deskCall c).2.heap.text = some "7" ∧
      (deskCall c').1.isOk = false := by
  decide +kernel

end Animator

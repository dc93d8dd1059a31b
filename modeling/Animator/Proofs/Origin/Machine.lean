import Animator.Eval.Entry
import Animator.Proofs.Origin.Heap

/-!
# Origins in a machine

Updates of the heap with values from an origin keep the origin, and so do the scopes that an
evaluation opens. `Machine.From` collects what it means for a machine to hold nothing from outside
of the origin: global names, cells, objects, threads that wait, breakpoints and watch expressions.
-/

namespace Animator

variable {v : Value} {name : Name} {d : Delegates}

section Computation
variable {ε σ α β : Type} {x : ExceptT ε (StateM σ) α} {f : α → ExceptT ε (StateM σ) β} {s t : σ}

theorem bind_of_ok {a : α} (hx : x s = (.ok a, t)) : (x >>= f) s = f a t := by
  change (match x s with | (r, t) => ExceptT.bindCont f r t) = f a t
  rw [hx]
  rfl

theorem bind_of_error {e : ε} (hx : x s = (.error e, t)) : (x >>= f) s = (.error e, t) := by
  change (match x s with | (r, t) => ExceptT.bindCont f r t) = _
  rw [hx]
  rfl

theorem exists_of_bind_eq_ok {b : β} (h : (x >>= f) s = (.ok b, t)) :
    ∃ a s₁, x s = (.ok a, s₁) ∧ f a s₁ = (.ok b, t) := by
  rcases hx : x s with ⟨_ | a, s₁⟩
  · rw [bind_of_error hx] at h
    cases h
  · rw [bind_of_ok hx] at h
    exact ⟨a, s₁, rfl, h⟩
end Computation

variable {o : Origin} {h : Heap}

/-! ### Updates -/

namespace Heap

theorem From.newCell (hh : h.From o) {cell : Cell} (hv : cell.value.From o) :
    (h.newCell cell).2.From o := by
  refine ⟨fun c => ?_, fun ref => hh.members ref⟩
  have hc := hh.cells c
  simp only [Heap.content, Heap.newCell, Array.getElem?_push] at hc ⊢
  split
  · next found =>
    split at found
    · cases found
      exact hv
    · rwa [found] at hc
  · trivial

theorem From.store (hh : h.From o) (c : CellId) (hv : v.From o) :
    (h.store c v).From o := by
  refine ⟨fun d => ?_, fun ref => hh.members ref⟩
  have hd := hh.cells d
  simp only [Heap.content, Heap.store, Array.getElem?_modify] at hd ⊢
  split
  · next found =>
    split at found
    · obtain ⟨cell, -, rfl⟩ := Option.map_eq_some_iff.1 found
      exact hv
    · rwa [found] at hd
  · trivial

theorem From.modifyObject (hh : h.From o) (id : ObjectId) {f : Object → Object}
    (hf : ∀ object, Bindings.From o object.members → Bindings.From o (f object).members) :
    (h.modifyObject id f).From o := by
  cases id with
  | zero => exact hh
  | succ n =>
    refine ⟨hh.cells, fun ref => ?_⟩
    have hmembers := hh.members ref
    -- Objects are numbered from one, so there is none with the number zero.
    obtain ⟨id, className⟩ := ref
    cases id with
    | zero => exact hmembers
    | succ k =>
      simp only [Heap.members, Heap.object?, Heap.modifyObject, Array.getElem?_modify] at hmembers ⊢
      split
      · next found =>
        split at found
        · obtain ⟨object, hobject, rfl⟩ := Option.map_eq_some_iff.1 found
          rw [hobject] at hmembers
          exact hf object hmembers
        · rwa [found] at hmembers
      · simp [Bindings.From]

theorem From.newObject (hh : h.From o) (className : String) : (h.newObject className).2.From o := by
  refine ⟨hh.cells, fun ref => ?_⟩
  have hmembers := hh.members ref
  obtain ⟨id, name⟩ := ref
  cases id with
  | zero => exact hmembers
  | succ k =>
    simp only [Heap.members, Heap.object?, Heap.newObject, Array.getElem?_push] at hmembers ⊢
    split
    · next found =>
      split at found
      · cases found
        simp [Bindings.From]
      · rwa [found] at hmembers
    · simp [Bindings.From]

theorem From.setMember (hh : h.From o) (ref : ObjectRef) (name : Name) (hv : v.Bound o) :
    (h.setMember ref name v).From o :=
  hh.modifyObject ref.id fun _ hmembers => hmembers.insert hv

theorem From.deploy (hh : h.From o) (ref : ObjectRef) (cpu : Nat) : (h.deploy ref cpu).From o :=
  hh.modifyObject ref.id fun _ hmembers => hmembers

theorem From.setThread (hh : h.From o) (ref : ObjectRef) (thread : Option Nat) :
    (h.setThread ref thread).From o :=
  hh.modifyObject ref.id fun _ hmembers => hmembers

end Heap

/-! ### Contexts -/

structure Root.From (o : Origin) (r : Root) : Prop where
  captured : ∀ b, r.captured = some b → Bindings.From o b
  args : ∀ routine, r.routine = some routine → Values.From o routine.args

structure Scope.From (o : Origin) (s : Scope) : Prop where
  bindings : Bindings.From o s.bindings
  root : ∀ r, s.root = some r → r.From o

def Context.From (o : Origin) (c : Context) : Prop :=
  ∀ s ∈ c.scopes, s.From o

structure Globals.From (o : Origin) (g : Globals) : Prop where
  values : Bindings.From o g.values
  classes : ∀ entry ∈ g.classes, o.Class entry.2.definition
  statics : ∀ entry ∈ g.classes, Bindings.From o entry.2.statics

namespace Globals

variable {g : Globals}

theorem mem_classes {name : String} {scope : ClassScope} (hs : g.class? name = some scope) :
    ∃ entry ∈ g.classes, entry.2 = scope := by
  obtain ⟨entry, hentry, rfl⟩ := Option.map_eq_some_iff.1 hs
  exact ⟨entry, List.mem_of_find?_eq_some hentry, rfl⟩

theorem From.class? (hg : g.From o) {name : String} {scope : ClassScope}
    (hs : g.class? name = some scope) : o.Class scope.definition := by
  obtain ⟨entry, hentry, rfl⟩ := mem_classes hs
  exact hg.classes entry hentry

theorem From.static? (hg : g.From o) {className : String} (hv : g.static? className name = some v) :
    v.Bound o := by
  obtain ⟨scope, hscope, hv⟩ := Option.bind_eq_some_iff.1 hv
  obtain ⟨entry, hentry, rfl⟩ := mem_classes hscope
  exact (hg.statics entry hentry).get? hv

theorem From.lookup (hg : g.From o) (hv : g.lookup name = some v) :
    v.Bound o := by
  rcases Option.or_eq_some_iff.1 hv with hv | ⟨-, hv⟩
  · exact hg.values.get? hv
  · exact hg.static? hv

end Globals

theorem Root.From.lookup {r : Root} (hr : r.From o) {g : Globals} (hg : g.From o) (hh : h.From o)
    (hv : r.lookup g h name = some v) : v.Bound o := by
  -- In this order: what a local function has captured, the members of the class, object or state,
  -- and the globals.
  rcases Option.or_eq_some_iff.1 hv with hv | ⟨-, hv⟩
  · rcases Option.or_eq_some_iff.1 hv with hv | ⟨-, hv⟩
    · obtain ⟨b, hb, hv⟩ := Option.bind_eq_some_iff.1 hv
      exact (hr.captured b hb).get? hv
    · split at hv
      · cases hv
      · exact hg.static? hv
      · rcases Option.or_eq_some_iff.1 hv with hv | ⟨-, hv⟩
        · exact hh.member? hv
        · exact hg.static? hv
      · obtain ⟨scope, -, hv⟩ := Option.bind_eq_some_iff.1 hv
        obtain ⟨field, -, rfl⟩ := Option.map_eq_some_iff.1 hv
        exact Value.bound_updatable _
  · exact hg.lookup hv

theorem Scope.from_addMissing {found more : Bindings} (hf : Bindings.From o found)
    (hm : Bindings.From o more) : Bindings.From o (Scope.addMissing found more) := by
  induction more generalizing found with
  | nil => exact hf
  | cons b rest ih =>
    refine ih ?_ fun q hq => hm q (List.mem_cons_of_mem _ hq)
    dsimp only
    split
    · exact hf
    · exact hf.insert (hm b List.mem_cons_self)

/-- The nearest root is one of the scopes, and so is every `Scope` around it. -/
theorem Scope.mem_of_mem_fromRoot {s t : Scope} {outer : List Scope}
    (ht : t ∈ (s.fromRoot outer).1 :: (s.fromRoot outer).2) : t ∈ s :: outer := by
  induction outer generalizing s with
  | nil => simpa [Scope.fromRoot] using ht
  | cons next rest ih =>
    rw [Scope.fromRoot] at ht
    split at ht
    · exact ht
    · exact List.mem_cons_of_mem _ (ih ht)

namespace Context

variable {c : Context}

theorem From.lookup (hc : c.From o) {g : Globals} (hg : g.From o) (hh : h.From o)
    (hv : c.lookup g h name = some v) : v.Bound o := by
  -- Scopes are searched from the inside out, as far as the nearest root.
  have hchain : ∀ scopes : List Scope, (∀ s ∈ scopes, s.From o) →
      Scope.lookup g h name scopes = some v → v.Bound o := by
    intro scopes
    induction scopes with
    | nil => exact fun _ hv => hg.lookup hv
    | cons s rest ih =>
      intro hs hv
      have hinner := hs s List.mem_cons_self
      rw [Scope.lookup] at hv
      split at hv
      · next hget =>
        cases hv
        exact hinner.bindings.get? hget
      · split at hv
        · next hroot => exact (hinner.root _ hroot).lookup hg hh hv
        · exact ih (fun t ht => hs t (List.mem_cons_of_mem _ ht)) hv
  exact hchain c.scopes hc hv

theorem From.visible (hc : c.From o) : Bindings.From o c.visible := by
  have hchain : ∀ (scopes : List Scope) (found : Bindings), (∀ s ∈ scopes, s.From o) →
      Bindings.From o found → Bindings.From o (Scope.visible found scopes) := by
    intro scopes
    induction scopes with
    | nil => exact fun _ _ hf => hf
    | cons s rest ih =>
      intro found hs hf
      have hinner := hs s List.mem_cons_self
      have hadded := Scope.from_addMissing hf hinner.bindings
      rw [Scope.visible]
      split
      · next root hroot =>
        refine Scope.from_addMissing hadded ?_
        cases hcaptured : root.captured with
        | none => simp [Bindings.From]
        | some b => exact (hinner.root _ hroot).captured b hcaptured
      · exact ih _ (fun t ht => hs t (List.mem_cons_of_mem _ ht)) hadded
  exact hchain c.scopes [] hc (by simp [Bindings.From])

theorem From.routine? (hc : c.From o) {routine : Routine} (hr : c.routine? = some routine) :
    Values.From o routine.args := by
  obtain ⟨root, hroot, hr⟩ := Option.bind_eq_some_iff.1 hr
  have hmem : (c.inner.fromRoot c.outer).1 ∈ c.inner :: c.outer :=
    Scope.mem_of_mem_fromRoot List.mem_cons_self
  exact ((hc _ hmem).root root hroot).args routine hr

theorem From.holdAll (hc : c.From o) (values : List Value) : (c.holdAll values).From o :=
  hc

theorem From.bindAll (hc : c.From o) {matched : List (Name × Value)}
    (hm : Bindings.From o matched) : (c.bindAll matched).From o := by
  intro s hs
  rcases List.mem_cons.1 hs with rfl | hs
  · have hinner := hc c.inner List.mem_cons_self
    exact ⟨hm.insertAll hinner.bindings, hinner.root⟩
  · exact hc s (List.mem_cons_of_mem _ hs)

theorem From.nest (hc : c.From o) {s : Scope} (hs : s.From o) :
    Context.From o { c with inner := s, outer := c.scopes } := by
  intro t ht
  rcases List.mem_cons.1 ht with rfl | ht
  · exact hs
  · exact hc t ht

end Context

theorem Root.from_plain (kind : RootKind) : Root.From o { kind } :=
  ⟨nofun, nofun⟩

theorem Context.from_all (c : Context) : c.From .all :=
  fun _ _ => ⟨Bindings.from_all _, fun _ _ =>
    ⟨fun _ _ => Bindings.from_all _, fun _ _ => Values.from_all _⟩⟩

/-! ### Operations given from outside -/

/-- The operations of processors do not look at the `Scheduler`, so they can be followed through a
change of it. -/
theorem cpuOperation_map {f : Scheduler → Scheduler} {s : Scheduler} (h : Heap)
    (call : DelegateCall)
    (hcpu : ∀ cpu hz, (f s).defineCpu cpu hz = f (s.defineCpu cpu hz)) :
    cpuOperation h (f s) call =
      (cpuOperation h s call).map fun r => r.map fun (h, s) => (h, f s) := by
  unfold cpuOperation
  split
  · cases call.cpu with
    | error => rfl
    | ok cpu =>
      cases call.args[1]? with
      | none => rfl
      | some arg =>
        simp only [hcpu]
        cases hhz : messageOnly (h.natural arg) <;> simp [hhz] <;> rfl
  · cases call.cpu with
    | error => rfl
    | ok cpu =>
      cases call.args[0]? with
      | none => rfl
      | some arg => cases hobj : messageOnly (h.objectRef arg) <;> simp [hobj] <;> rfl
  · rfl
  · rfl

/-- Operations given from outside read the time of their thread, and nothing else of a `Scheduler`.
So they can be followed through a change that keeps this time. -/
theorem Delegates.invoke_map {f : Scheduler → Scheduler} {s : Scheduler} (d : Delegates) (h : Heap)
    (call : DelegateCall) (htime : (f s).time call.thread = s.time call.thread)
    (hcpu : ∀ cpu hz, (f s).defineCpu cpu hz = f (s.defineCpu cpu hz)) :
    d.invoke h (f s) call =
      (d.invoke h s call).map fun r => r.map fun (v, h, s) => (v, h, f s) := by
  unfold Delegates.invoke
  rw [htime]
  cases (d.get? call.owner).bind (·.invoke h (s.time call.thread) call) with
  | some result => cases result <;> rfl
  | none =>
    dsimp only
    split
    · rw [cpuOperation_map h call hcpu]
      cases cpuOperation h s call with
      | none => rfl
      | some r => cases r <;> rfl
    · rfl

/-- Whatever a delegate is given from the `Origin`, it gives nothing from outside of it. -/
def Delegate.From (o : Origin) (d : Delegate) : Prop :=
  ∀ h now call v, h.From o → Values.From o call.args → d.invoke h now call = some (.ok v) → v.From o

def Delegates.From (o : Origin) (d : Delegates) : Prop :=
  ∀ entry ∈ d, entry.2.From o

namespace Delegates

/-- All that an operation given from outside can do: give a value of its own, define a processor, or
`deploy` an object. -/
theorem invoke_cases {s s' : Scheduler} {call : DelegateCall} {h' : Heap}
    (hi : d.invoke h s call = some (.ok (v, h', s'))) :
    ((∃ entry ∈ d, entry.2.invoke h (s.time call.thread) call = some (.ok v)) ∧
      h' = h ∧ s' = s) ∨
    (v = .void ∧ (h' = h ∧ s' = s ∨ (h' = h ∧ ∃ cpu hz, s' = s.defineCpu cpu hz) ∨
      (s' = s ∧ ∃ ref cpu, h' = h.deploy ref cpu))) := by
  unfold Delegates.invoke at hi
  split at hi
  · next result hresult =>
    left
    obtain ⟨w, rfl, hi⟩ := bind_eq_ok (Option.some.inj hi)
    cases hi
    obtain ⟨delegate, hdelegate, hgiven⟩ := Option.bind_eq_some_iff.1 hresult
    obtain ⟨entry, hentry, rfl⟩ := Option.map_eq_some_iff.1 hdelegate
    exact ⟨⟨entry, List.mem_of_find?_eq_some hentry, hgiven⟩, rfl, rfl⟩
  · right
    split at hi
    · obtain ⟨r, hr, hi⟩ := Option.map_eq_some_iff.1 hi
      -- Processors are defined and objects are deployed; priorities are ignored.
      obtain ⟨⟨h₁, s₁⟩, hr₁, hi⟩ := bind_eq_ok hi
      cases hi
      refine ⟨rfl, ?_⟩
      subst hr₁
      unfold cpuOperation at hr
      split at hr
      · obtain ⟨cpu, -, hr⟩ := bind_eq_ok (Option.some.inj hr)
        dsimp only at hr
        split at hr
        · obtain ⟨arg, -, hr⟩ := bind_eq_ok hr
          obtain ⟨hz, -, hr⟩ := bind_eq_ok hr
          cases hr
          exact .inr (.inl ⟨rfl, cpu, hz, rfl⟩)
        · cases hr
      · obtain ⟨cpu, -, hr⟩ := bind_eq_ok (Option.some.inj hr)
        dsimp only at hr
        split at hr
        · obtain ⟨arg, -, hr⟩ := bind_eq_ok hr
          obtain ⟨ref, -, hr⟩ := bind_eq_ok hr
          cases hr
          exact .inr (.inr ⟨rfl, ref, cpu, rfl⟩)
        · cases hr
      · cases hr
        exact .inl ⟨rfl, rfl⟩
      · cases hr
    · cases hi

theorem From.invoke (hd : d.From o) (hh : h.From o) {s s' : Scheduler} {call : DelegateCall}
    (hargs : Values.From o call.args) {h' : Heap}
    (hi : d.invoke h s call = some (.ok (v, h', s'))) : v.From o ∧ h'.From o := by
  rcases invoke_cases hi with ⟨⟨entry, hentry, hv⟩, rfl, -⟩ | ⟨rfl, hheap⟩
  · exact ⟨hd entry hentry _ _ _ _ hh hargs hv, hh⟩
  · refine ⟨trivial, ?_⟩
    rcases hheap with ⟨rfl, -⟩ | ⟨rfl, -⟩ | ⟨-, ref, cpu, rfl⟩
    · exact hh
    · exact hh
    · exact hh.deploy ref cpu

end Delegates

/-! ### Machines -/

def ThreadBody.From (o : Origin) : ThreadBody → Prop
  | .statement _ body => o.stmt body
  | .operation _ op => o.Operation op.definition

theorem ThreadBody.from_all (body : ThreadBody) : body.From .all := by
  cases body with
  | statement ref s => trivial
  | operation ref op => exact Origin.whole_all.operation op.definition

def BreakpointKind.exprs : BreakpointKind → List Expr
  | .stop (.expr e) => [e]
  | .trace es => es
  | _ => []

/-- The machine holds nothing from outside of the `Origin`. -/
structure Machine.From (o : Origin) (m : Machine) : Prop where
  globals : m.globals.From o
  heap : m.heap.From o
  waiting : ∀ w ∈ m.scheduler.waiting, w.2.body.From o
  breakpoints : ∀ b ∈ m.breakpoints.entries, ∀ e ∈ b.kind.exprs, o.expr e
  watch : ∀ link, m.link = some link → ∀ e ∈ link.watch, o.expr e

theorem Program.delegates_from_all (P : Program) : P.delegates.From .all :=
  fun _ _ _ _ _ v _ _ _ => v.from_all

theorem Machine.from_all (m : Machine) : m.From .all where
  globals := ⟨Bindings.from_all _, fun _ _ => Origin.class_all _, fun _ _ => Bindings.from_all _⟩
  heap := Heap.from_all _
  waiting w _ := w.2.body.from_all
  breakpoints _ _ _ _ := trivial
  watch _ _ _ _ := trivial

end Animator

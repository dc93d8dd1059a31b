import Animator.Proofs.Coupling.Basic
import Animator.Proofs.Effect.Debug

/-!
# Evaluations abreast

Two evaluations of the same code without a debugger are compared. Their machines have the same gist:
they agree in everything but how often places were reached, what is logged and remembered, the
numbers of scopes, and the turns that threads have offered. The scopes of their contexts may have
different titles and locations, as long as errors name the same frame. The second evaluation may
have a larger bound.

They end in the same way, on machines that have the same gist again, unless the first one is cut
off.
-/

namespace Animator

/-! ### Contexts -/

/-- Two scopes with the same names. -/
structure Scope.Retitled (s s' : Scope) : Prop where
  bindings : s'.bindings = s.bindings
  root : s'.root = s.root

namespace Scope

variable {chain chain' : List Scope}

theorem Retitled.refl (s : Scope) : s.Retitled s :=
  ⟨rfl, rfl⟩

theorem Retitled.values {s s' : Scope} (h : s.Retitled s') : s'.values = s.values := by
  unfold Scope.values
  rw [h.bindings, h.root]

theorem lookup_retitled (h : List.Forall₂ Retitled chain chain') (g : Globals) (heap : Heap)
    (name : Name) : Scope.lookup g heap name chain = Scope.lookup g heap name chain' := by
  induction h with
  | nil => rfl
  | cons hs _ ih => simp only [Scope.lookup, hs.bindings, hs.root, ih]

theorem visible_retitled (h : List.Forall₂ Retitled chain chain') (found : Bindings) :
    Scope.visible found chain = Scope.visible found chain' := by
  induction h generalizing found with
  | nil => rfl
  | cons hs _ ih => simp only [Scope.visible, hs.bindings, hs.root, ih]

theorem root_fromRoot_retitled {s s' : Scope} {rest rest' : List Scope} (hs : s.Retitled s')
    (h : List.Forall₂ Retitled rest rest') :
    (s.fromRoot rest).1.root = (s'.fromRoot rest').1.root := by
  induction h generalizing s s' with
  | nil => exact hs.root.symm
  | cons hnext _ ih =>
    unfold Scope.fromRoot
    rw [hs.root]
    split
    · exact hs.root.symm
    · exact ih hnext

/-- The `title` of the nearest root has nothing to do with `bindings`. -/
theorem title_fromRoot (s : Scope) (bindings : Bindings) (rest : List Scope) :
    (fromRoot { s with bindings } rest).1.title = (s.fromRoot rest).1.title := by
  cases rest with
  | nil => rfl
  | cons next rest =>
    unfold Scope.fromRoot
    dsimp only
    split <;> rfl

end Scope

namespace Context

/-- Two contexts with the same names on the same thread, of which errors name the same frame. -/
structure Retitled (c c' : Context) : Prop where
  thread : c'.thread = c.thread
  held : c'.held = c.held
  scopes : List.Forall₂ Scope.Retitled c.scopes c'.scopes
  title : c'.rootOf.inner.title = c.rootOf.inner.title

theorem title_bindAll (c : Context) (matched : List (Name × Value)) :
    (c.bindAll matched).rootOf.inner.title = c.rootOf.inner.title :=
  c.inner.title_fromRoot _ c.outer

namespace Retitled

variable {c c' : Context}

theorem refl (c : Context) : c.Retitled c :=
  ⟨rfl, rfl, List.forall₂_same.2 fun s _ => .refl s, rfl⟩

variable (h : c.Retitled c')

include h

theorem holdAll (values : List Value) : (c.holdAll values).Retitled (c'.holdAll values) :=
  ⟨h.thread, congrArg (values ++ ·) h.held, h.scopes, h.title⟩

theorem bindAll (matched : List (Name × Value)) :
    (c.bindAll matched).Retitled (c'.bindAll matched) := by
  refine ⟨h.thread, h.held, ?_, ?_⟩
  · obtain ⟨hinner, houter⟩ := List.forall₂_cons.1 h.scopes
    refine .cons ⟨?_, hinner.root⟩ houter
    exact congrArg (fun bindings : Bindings => bindings.insertAll matched) hinner.bindings
  · rw [c'.title_bindAll, c.title_bindAll]
    exact h.title

theorem derive {s s' : Scope} (hs : s.root = none) (hss' : s.Retitled s') :
    Retitled { c with inner := s, outer := c.scopes }
      { c' with inner := s', outer := c'.scopes } := by
  refine ⟨h.thread, h.held, .cons hss' h.scopes, ?_⟩
  -- The nearest root is further out.
  have hroot : ∀ (c : Context) (s : Scope), s.root = none →
      rootOf { c with inner := s, outer := c.scopes } = c.rootOf := by
    intro c s hs
    simp [rootOf, Context.scopes, Scope.fromRoot, hs]
  rw [hroot c s hs, hroot c' s' (hss'.root.trans hs)]
  exact h.title

theorem nest (id id' : ContextId) (title : String) (location : Location) (root : Option Root) :
    Retitled { c with inner := ⟨id, title, location, [], root⟩, outer := c.scopes }
      { c' with inner := ⟨id', title, location, [], root⟩, outer := c'.scopes } := by
  cases root with
  | none => exact h.derive rfl ⟨rfl, rfl⟩
  | some root =>
    refine ⟨h.thread, h.held, .cons ⟨rfl, rfl⟩ h.scopes, ?_⟩
    simp [rootOf, Context.scopes, Scope.fromRoot]

theorem lookup (g : Globals) (heap : Heap) (name : Name) :
    c.lookup g heap name = c'.lookup g heap name :=
  Scope.lookup_retitled h.scopes g heap name

theorem root? : c.root? = c'.root? := by
  obtain ⟨hinner, houter⟩ := List.forall₂_cons.1 h.scopes
  exact Scope.root_fromRoot_retitled hinner houter

theorem holds : c.holds = c'.holds := by
  have hscopes : ∀ {chain chain' : List Scope}, List.Forall₂ Scope.Retitled chain chain' →
      ∀ node, chain.any (·.values.any (·.refersTo node)) =
        chain'.any (·.values.any (·.refersTo node)) := by
    intro chain chain' hchain node
    induction hchain with
    | nil => rfl
    | cons hs _ ih => rw [List.any_cons, List.any_cons, hs.values, ih]
  funext node
  rw [Context.holds, Context.holds, h.held, hscopes h.scopes]

theorem alike : c.Alike .all c' where
  self := by rw [self?, self?, h.root?]
  owner := by rw [owner, owner, routine?, routine?, h.root?]
  routine := by rw [routine?, routine?, h.root?]
  args _ _ := Values.from_all _
  visible := Scope.visible_retitled h.scopes []
  bindings := Bindings.from_all _
  inner := (List.forall₂_cons.1 h.scopes).1.values.symm

end Retitled

end Context

/-! ### Machines -/

/-- How quiet it is around two evaluations, and how closely they are compared. -/
structure Lull where
  silent : Prop
  nodes : NodeId → Prop
  /-- The same calls are remembered. -/
  calls : Prop := False
  /-- The first evaluation may be cut off before the second. -/
  short : Prop := True

/-- There is no debugger, no request, and no breakpoint at any node. -/
def Lull.complete : Lull :=
  { silent := True, nodes := fun _ => True }

/-- The `Mask` that hides what is counted and remembered on the way. -/
def Mask.gist : Mask where
  turns _ _ := 0
  aside a := { a with hits := {}, history := [] }

namespace Machine

/-- The machine without its log, what it remembers of calls and `changes`, and the number of the
next scope. -/
def bald (m : Machine) : Machine :=
  { m with nextContext := 0, log := #[], calls := [], changes := [] }

/-- The machine without what is counted and remembered on the way. -/
def gist (m : Machine) : Machine :=
  (Mask.gist.machine m).bald

end Machine

/-- What part of an evaluation remembers of calls depends on nothing. -/
theorem Part.calls {α : Type} {x : Eval α} (hx : Part x) :
    ∃ new, ∀ m, (x m).2.calls = new ++ m.calls := by
  cases hx with
  | called => exact ⟨[_], fun m => rfl⟩
  | invoke d call =>
    refine ⟨[], fun m => ?_⟩
    unfold Eval.invoke
    rcases d.invoke m.heap m.scheduler call with _ | message | ⟨v, heap, scheduler⟩ <;> rfl
  | _ => exact ⟨[], fun m => rfl⟩

theorem Part.bald {α : Type} {x : Eval α} (hx : Part x) (m : Machine) :
    (x m.bald).1 = (x m).1 ∧ (x m.bald).2.bald = (x m).2.bald := by
  cases hx with
  | @reads _ f hf => exact ⟨congrArg Except.ok ((hf m.bald).trans (hf m).symm), rfl⟩
  | invoke d call =>
    unfold Eval.invoke
    rcases hi : d.invoke m.heap m.scheduler call with _ | message | ⟨v, heap, scheduler⟩
    all_goals
      rw [show d.invoke m.bald.heap m.bald.scheduler call = _ from hi]
      exact ⟨rfl, rfl⟩
  | _ => exact ⟨rfl, rfl⟩

namespace Machine

theorem gist_yieldPoint (m : Machine) (id : ThreadId) :
    ({ m with scheduler := m.scheduler.yieldPoint id } : Machine).gist = m.gist := by
  have hyield := Mask.gist.scheduler_modify_eq m.scheduler id
    (f := fun r => { r with yields := r.yields + 1 }) fun _ => rfl
  exact congrArg (fun s => { m.gist with scheduler := s }) hyield

/-- No debugger is attached, and it is as quiet as that. -/
structure Lulled (L : Lull) (m : Machine) : Prop where
  link : m.link = none
  request : L.silent → m.scheduler.interrupt = .none
  nodes : ∀ node, L.nodes node → m.breakpoints.at? node = none

/-- Two machines without a debugger that have the same `gist`. -/
structure Abreast (L : Lull) (m m' : Machine) : Prop where
  lulled : m.Lulled L
  gist : m.gist = m'.gist
  calls : L.calls → m.calls = m'.calls

section

variable {L : Lull} {m m' m₁ : Machine}

theorem Lulled.of_aside (hm : m.Lulled L) (haside : m'.aside = m.aside)
    (hrequest : m'.scheduler.interrupt = m.scheduler.interrupt) : m'.Lulled L where
  link := (congrArg Aside.link haside :).trans hm.link
  request hsilent := hrequest.trans (hm.request hsilent)
  nodes node hnode :=
    (congrArg (fun a : Aside => a.breakpoints.at? node) haside :).trans (hm.nodes node hnode)

namespace Abreast

theorem refl (hm : m.Lulled L) : m.Abreast L m :=
  ⟨hm, rfl, fun _ => rfl⟩

variable (h : m.Abreast L m')

include h

theorem heap : m.heap = m'.heap :=
  (congrArg Machine.heap h.gist :)

theorem breakpoints : m.breakpoints = m'.breakpoints :=
  (congrArg Machine.breakpoints h.gist :)

theorem interrupt : m.scheduler.interrupt = m'.scheduler.interrupt :=
  (congrArg (fun m : Machine => m.scheduler.interrupt) h.gist :)

theorem thread (id : ThreadId) : m.thread id = m'.thread id := by
  have hthread : ∀ m : Machine, m.gist.thread id = m.thread id :=
    fun m => Mask.gist.thread_machine m id
  rw [← hthread m, h.gist, hthread]

theorem right : m'.Lulled L where
  link := (congrArg Machine.link h.gist).symm.trans h.lulled.link
  request hsilent := h.interrupt.symm.trans (h.lulled.request hsilent)
  nodes node hnode := h.breakpoints ▸ h.lulled.nodes node hnode

theorem symm : m'.Abreast L m :=
  ⟨h.right, h.gist.symm, fun hcalls => (h.calls hcalls).symm⟩

theorem trans (h' : m'.Abreast L m₁) : m.Abreast L m₁ :=
  ⟨h.lulled, h.gist.trans h'.gist, fun hcalls => (h.calls hcalls).trans (h'.calls hcalls)⟩

theorem mapHeap (f : Heap → Heap) :
    Abreast L { m with heap := f m.heap } { m' with heap := f m'.heap } :=
  ⟨⟨h.lulled.link, h.lulled.request, h.lulled.nodes⟩,
    (congrArg (fun m : Machine => { m with heap := f m.heap }) h.gist :), h.calls⟩

theorem hit (number : Nat) :
    Abreast L { m with breakpoints := m.breakpoints.hit number }
      { m' with breakpoints := m'.breakpoints.hit number } := by
  refine ⟨⟨h.lulled.link, h.lulled.request, fun node hnode => ?_⟩, ?_, h.calls⟩
  case refine_2 =>
    exact (congrArg (fun m : Machine =>
      { m with breakpoints := m.breakpoints.hit number }) h.gist :)
  have hall := List.find?_eq_none.1 (h.lulled.nodes node hnode)
  refine List.find?_eq_none.2 fun b hb => ?_
  obtain ⟨a, ha, rfl⟩ := List.mem_map.1 hb
  -- A breakpoint that is hit stays where it is.
  have hplace := hall a ha
  unfold Breakpoint.countHit
  split <;> exact hplace

/-- Both `remember` something, not necessarily the same. -/
theorem remember (event event' : Event) :
    Abreast L { m with history := event :: m.history }
      { m' with history := event' :: m'.history } :=
  ⟨⟨h.lulled.link, h.lulled.request, h.lulled.nodes⟩, h.gist, h.calls⟩

theorem part {α : Type} {x : Eval α} (hx : Part x) :
    (x m).1 = (x m').1 ∧ (x m).2.Abreast L (x m').2 := by
  have hgist : ∀ m : Machine, (x m.gist).1 = (x m).1 ∧ (x m.gist).2.bald = (x m).2.gist := by
    intro m
    have hbald := hx.bald (Mask.gist.machine m)
    rwa [hx.behind Mask.gist rfl] at hbald
  obtain ⟨haside, hrequest, -⟩ := hx.keeps m
  obtain ⟨new, hnew⟩ := hx.calls
  refine ⟨?_, h.lulled.of_aside haside hrequest, ?_, fun hcalls => ?_⟩
  · rw [← (hgist m).1, h.gist, (hgist m').1]
  · rw [← (hgist m).2, h.gist, (hgist m').2]
  · rw [hnew, hnew, h.calls hcalls]

theorem guard (g : Guard) (id : ThreadId) :
    (g.enter id m).Abreast L (g.enter id m') ∧ (g.leave id m).Abreast L (g.leave id m') := by
  have hguard : ∀ m : Machine,
      g.enter id m.gist = (g.enter id m).gist ∧ g.leave id m.gist = (g.leave id m).gist := by
    intro m
    obtain ⟨henter, hleave⟩ := Mask.gist.machine_guard m id g
    unfold Machine.gist
    rw [← henter, ← hleave]
    cases g <;> exact ⟨rfl, rfl⟩
  refine ⟨⟨?_, ?_, ?_⟩, ?_, ?_, ?_⟩
  · cases g <;> exact h.lulled.of_aside rfl rfl
  · exact (hguard m).1.symm.trans ((congrArg (g.enter id) h.gist).trans (hguard m').1)
  · cases g <;> exact h.calls
  · cases g <;> exact h.lulled.of_aside rfl rfl
  · exact (hguard m).2.symm.trans ((congrArg (g.leave id) h.gist).trans (hguard m').2)
  · cases g <;> exact h.calls

end Abreast

end

end Machine

/-- Two evaluations without a debugger, on machines that have the same `gist`. -/
def abreast (L : Lull) : Coupling where
  Rel := Machine.Abreast L
  Ctx := Context.Retitled
  Short := L.short
  onThread hc := hc.thread
  holds hc := hc.holds
  resolves hc := hc.lookup
  alike hc := hc.alike
  holdAll values hc := hc.holdAll values
  bindAll matched hc := hc.bindAll matched
  scope title location root hc h := ⟨hc.nest _ _ title location root,
    ⟨h.lulled.link, h.lulled.request, h.lulled.nodes⟩, h.gist, h.calls⟩
  isPure := @Thread.isPure_of_eq
  thread id h := h.thread id
  part hx h := h.part hx
  guard id _ h := h.guard _ id
  unhit _ h := ⟨⟨h.lulled.link, h.lulled.request, h.lulled.nodes⟩, h.gist, h.calls⟩
  mapHeap f h := h.mapHeap f

/-- Two evaluations that end in the same way, on machines that have the same gist again, unless the
first one is cut off. -/
abbrev Abreast {α : Type} (L : Lull) (Q : α → α → Prop) (x y : Eval α) : Prop :=
  (abreast L).Holds Q x y

namespace Abreast

variable {α : Type} {L : Lull} {Q : α → α → Prop} {E E' : Engine} {c c' : Context}
  {location : Location}

theorem freshContext : Abreast L (fun _ _ => True) Eval.freshContext Eval.freshContext :=
  fun _ _ h => .inr ⟨.value trivial, ⟨h.lulled.link, h.lulled.request, h.lulled.nodes⟩, h.gist,
    h.calls⟩

theorem unwind {halt : Halt} : Abreast L Q (Eval.unwind halt) (Eval.unwind halt) :=
  fun _ _ h => .inr ⟨.halt halt.from_all, h.remember _ _⟩

/-- Nothing stops without a debugger. -/
theorem suspendIf {reason : StopReason} (b b' : Bool) (d d' : Context) :
    Abreast L Eq (if b then E.suspend reason location d else Pure.pure ())
      (if b' then E'.suspend reason location d' else Pure.pure ()) := by
  have hnothing : ∀ (E : Engine) (c : Context) (b : Bool) (m : Machine), m.link = none →
      (if b then E.suspend reason location c else Pure.pure () : Eval Unit) m = (.ok (), m) := by
    intro E c b m hlink
    cases b with
    | true => exact E.suspend_of_none reason location c hlink
    | false => rfl
  intro m m' h
  rw [hnothing E d b m h.lulled.link, hnothing E' d' b' m' h.right.link]
  exact .inr ⟨.value rfl, h⟩

section Checks

variable {P : Program} (S : (abreast L).Sound P E E') (hc : c.Retitled c')

include S hc

theorem vigil : Vigil (abreast L).Holds E E' c c' where
  pure := .pure rfl
  bindEq := .bindEq
  heap := .part (.reads fun _ => rfl)
  onThread := hc.thread
  isRealTime := by rw [S.settings]
  thread := .reads fun _ _ h => h.thread _
  table _ := .reads fun _ _ h => by rw [h.breakpoints]
  note _ _ := .change fun _ _ h => h.remember _ _
  unwind _ := unwind
  count _ := .change fun _ _ h =>
    ⟨⟨h.lulled.link, h.lulled.request, h.lulled.nodes⟩, h.gist, h.calls⟩
  hit number := .change fun _ _ h => h.hit number
  takeInterrupt := by
    intro m m' h
    exact .inr ⟨.value h.interrupt, ⟨h.lulled.link, fun _ => rfl, h.lulled.nodes⟩,
      (congrArg (fun m : Machine => { m with scheduler := m.scheduler.takeInterrupt.2 }) h.gist :),
      h.calls⟩
  yieldPoint := by
    refine .change fun m m' h => ⟨h.lulled.of_aside rfl rfl, ?_, h.calls⟩
    exact (m.gist_yieldPoint _).trans (h.gist.trans (m'.gist_yieldPoint _).symm)
  suspendIf := suspendIf

theorem fail {code : Code} {message : String} :
    Abreast L Q (E.fail code message location c) (E'.fail code message location c') := by
  unfold Engine.fail
  rw [S.settings, hc.title]
  split
  · exact (vigil S hc).raise .throw
  · -- Without a debugger there is nobody to report to.
    intro m m' h
    rw [bind_of_ok (E.reportFatal_of_none _ location c h.lulled.link),
      bind_of_ok (E'.reportFatal_of_none _ location c' h.right.link)]
    exact Coupling.Holds.throw m m' h

theorem reaction : Reaction (abreast L).Holds E E' c c' where
  toChains := (vigil S hc).toChains
  log _ := hc.thread ▸ .part (.log _ _)
  inspect _ := by
    unfold Engine.inspect Eval.within
    rw [hc.thread]
    exact .outcome (.guard (g := .within .debugging) c.thread (S.expr hc) fun _ _ h => h.guard _ _)
  asks _ := by
    unfold Engine.asks Eval.within
    rw [hc.thread]
    refine .outcome (.guard (g := .within .debugging) c.thread ?_ fun _ _ h => h.guard _ _)
    refine .bindEq (S.expr hc) fun v => .bindEq (.part (.reads fun _ => rfl)) fun h => ?_
    dsimp only
    cases h.boolean v with
    | ok a => exact .pure rfl
    | error fault => exact fail S hc

/-- Arriving (`arrive`) at nodes that have the same place, where breakpoints do the same. -/
theorem arrive_of_meet {node node' : Node} (hlocation : node'.location = node.location)
    (hmeet : Abreast L Eq (E.meetBreakpoint node.id node.location c)
      (E'.meetBreakpoint node'.id node.location c')) :
    Abreast L Eq (E.arrive node c) (E'.arrive node' c') := by
  unfold Engine.arrive
  rw [hlocation]
  exact .bindEq ((vigil S hc).note _ _) fun _ => (vigil S hc).check node'.id hmeet

theorem arrive {node node' : Node} (hid : node'.id = node.id)
    (hlocation : node'.location = node.location) :
    Abreast L Eq (E.arrive node c) (E'.arrive node' c') := by
  refine arrive_of_meet S hc hlocation ?_
  rw [hid]
  exact (vigil S hc).meetBreakpoint (reaction S hc)

end Checks

theorem attends (L : Lull) (P : Program) : (abreast L).Attends P where
  fail S hc := fail S hc
  raise S hc := (vigil S hc).raise .throw
  comeBack S hc _ _ := (vigil S hc).comeBack _ _ _ _
  arrive S hc := arrive S hc rfl rfl

theorem engine (L : Lull) (hshort : L.short) (P : Program) (n d : Nat) :
    (abreast L).Sound P (P.engine n) (P.engine (n + d)) :=
  Coupling.engine (attends L P) n d fun _ => hshort

theorem engine_self (L : Lull) (P : Program) (n : Nat) :
    (abreast L).Sound P (P.engine n) (P.engine n) :=
  Coupling.engine (attends L P) n 0 fun hne => absurd rfl hne

/-- Without a debugger, no evaluation reads what a machine has counted and remembered: neither its
`hits` nor its `history`, nor what it remembers of `calls` and `changes`. -/
theorem records_unread (P : Program) (n : Nat) (c : Context) {m : Machine} (hlink : m.link = none)
    (hits : Hits) (history : List Event) (calls : List (ObjectRef × Bool))
    (changes : List Change) :
    let other := { m with hits, history, calls, changes }
    (∀ e, ((P.engine n).expr e c m).1 = ((P.engine n).expr e c other).1 ∧
      ((P.engine n).expr e c m).2.gist = ((P.engine n).expr e c other).2.gist) ∧
    ∀ s, ((P.engine n).stmt s c m).1 = ((P.engine n).stmt s c other).1 ∧
      ((P.engine n).stmt s c m).2.gist = ((P.engine n).stmt s c other).2.gist := by
  intro other
  let L : Lull := { silent := False, nodes := fun _ => False, short := False }
  have h : m.Abreast L other := ⟨⟨hlink, False.elim, fun _ => False.elim⟩, rfl, False.elim⟩
  have hends : ∀ x : Eval Value, Abreast L Eq x x →
      (x m).1 = (x other).1 ∧ (x m).2.gist = (x other).2.gist := by
    intro x hx
    obtain ⟨houtcomes, h₁⟩ := (hx m other h).resolve_left And.left
    exact ⟨houtcomes.eq, h₁.gist⟩
  exact ⟨fun e => hends _ ((engine_self L P n).expr (.refl c)),
    fun s => hends _ ((engine_self L P n).stmt (.refl c))⟩

end Abreast

/-- Evaluations `abreast` that have the same bound. -/
def Program.abreast (P : Program) (L : Lull) (n : Nat) : Logic .all (P.engine n) (P.engine n) :=
  Coupling.logic (Abreast.engine_self L P n) (Abreast.attends L P)

/-! ### Arriving unnoticed -/

/-- The thread does not look for requests, or there is none. -/
def Machine.Unasked (m : Machine) (c : Context) : Prop :=
  (m.thread c.thread).isDebugging = true ∨ m.scheduler.interrupt = .none

section Arrive

variable {L : Lull} {P : Program} (E : Engine) (node : Node) {c : Context} {m m' m₁ : Machine}

theorem Machine.Abreast.unasked (h : m.Abreast L m') (hm : m.Unasked c) : m'.Unasked c := by
  rw [Machine.Unasked, ← h.thread, ← h.interrupt]
  exact hm

theorem Engine.arrive_stopped (hm : m.Lulled L)
    (hdebugging : (m.thread c.thread).isDebugging = false)
    (hstop : (m.thread c.thread).stopRequested = true) :
    ∃ m₁, E.arrive node c m = (.error (.stopped node.location), m₁) ∧ m.Abreast L m₁ := by
  refine ⟨(m.counted node).unwound (.stopped node.location), ?_, hm, rfl, fun _ => rfl⟩
  rw [E.arrive_apply, hdebugging, hstop]
  rfl

theorem Engine.takeTurn_unseen (stopped : Bool) (location : Location) (c : Context)
    (hm : m.Lulled L) :
    ∃ m₁, E.takeTurn stopped location c m = (.ok (), m₁) ∧ m.Abreast L m₁ := by
  have hthread : Eval.thread c.thread m = (.ok (m.thread c.thread), m) := rfl
  unfold Engine.takeTurn
  rw [bind_of_ok hthread]
  split
  · cases (m.thread c.thread).isAtomic with
    | true => exact ⟨m, rfl, .refl hm⟩
    | false => exact ⟨_, rfl, hm, (m.gist_yieldPoint c.thread).symm, fun _ => rfl⟩
  · refine ⟨m, ?_, .refl hm⟩
    split
    · exact E.suspend_of_none _ location c hm.link
    · rfl

/-- Once there is no request, arriving at a node without a breakpoint goes unnoticed, unless the
thread is to stop. -/
theorem Engine.arrive_unseen (hm : m.Lulled L) (hask : m.Unasked c) (hnode : L.nodes node.id) :
    (∃ m₁, E.arrive node c m = (.ok (), m₁) ∧ m.Abreast L m₁) ∨
      (m.thread c.thread).isDebugging = false ∧ (m.thread c.thread).stopRequested = true := by
  rw [E.arrive_apply]
  cases hdebugging : (m.thread c.thread).isDebugging with
  | true => exact .inl ⟨m.counted node, rfl, hm, rfl, fun _ => rfl⟩
  | false =>
    cases hstop : (m.thread c.thread).stopRequested with
    | true => exact .inr ⟨rfl, rfl⟩
    | false =>
      have hnone : m.scheduler.interrupt = .none :=
        hask.resolve_left fun htrue => Bool.false_ne_true (hdebugging.symm.trans htrue)
      -- Taking no request changes nothing, and the visit that is counted does not show.
      have htaken : m.gist = (m.counted node).taken.gist := by
        have hscheduler : m.scheduler = m.scheduler.takeInterrupt.2 := by
          unfold Scheduler.takeInterrupt
          rw [← hnone]
        exact congrArg (fun s => ({ m with scheduler := s } : Machine).gist) hscheduler
      have hm' : (m.counted node).taken.Lulled L := ⟨hm.link, fun _ => rfl, hm.nodes⟩
      have hmeet := E.meetBreakpoint_of_none node.location c (hm'.nodes node.id hnode)
      obtain ⟨m₁, hturn, hturned⟩ := E.takeTurn_unseen false node.location c hm'
      refine .inl ⟨m₁, ?_, .trans ⟨hm, htaken, fun _ => rfl⟩ hturned⟩
      rw [hnone]
      exact (bind_of_ok hmeet).trans hturn

theorem Program.unasked_of_arrive {node : Node} {n : Nat} (hlink : m.link = none)
    (hrun : (P.engine n).arrive node c m = (.ok (), m₁)) : m₁.Unasked c := by
  rw [Engine.arrive_apply] at hrun
  split at hrun
  · next hdebugging =>
    cases hrun
    exact .inl hdebugging
  · split at hrun
    · cases hrun
    · -- The request has been taken, and nothing that a breakpoint evaluates makes a new one.
      let L : Lull := { silent := True, nodes := fun _ => False }
      have hlulled : (m.counted node).taken.Lulled L := ⟨hlink, fun _ => rfl, fun _ => False.elim⟩
      have S := Abreast.engine_self L P n
      have hobey : Abreast L Eq ((P.engine n).obey node.id node.location c m.scheduler.interrupt)
          ((P.engine n).obey node.id node.location c m.scheduler.interrupt) :=
        (Abreast.vigil S (.refl c)).obey node.id
          ((Abreast.vigil S (.refl c)).meetBreakpoint (Abreast.reaction S (.refl c)))
      have hboth := hobey _ _ (.refl hlulled)
      rw [hrun] at hboth
      rcases hboth with ⟨-, hcut⟩ | ⟨-, hm⟩
      · cases hcut
      · exact .inr (hm.lulled.request trivial)

end Arrive

end Animator

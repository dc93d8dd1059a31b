import Animator.Proofs.Effect.Debug
import Animator.Proofs.Effect.Frame
import Animator.Proofs.Logic.Entry

/-!
# Evaluations for the debugger

The debugger evaluates watch expressions, the conditions of breakpoints and traced expressions. No
breakpoint has an effect meanwhile and no request is obeyed.

There is one place at which such an evaluation can stop the thread all the same, and so come back
to the debugger: a call of an operation of an object that comes back to its place while the thread
is stepping.
-/

namespace Animator

/-- A debugger is attached that takes notice of stops. -/
def Machine.Attended (m : Machine) : Prop :=
  ∃ link, m.link = some link ∧ link.isAttending = true

/-- A call that began while a thread was stepping comes back to a place where the thread stops. -/
def Machine.StopsOnReturn (P : Program) (id : ThreadId) (m : Machine) (events : List Event) :
    Prop :=
  P.settings.isRealTime = false ∧ ∃ location c, .returned true location c ∈ events ∧
    (m.thread id).step.stopsAt location.line c = true

/-- What an evaluation for the debugger does to the debugger, given the `events` of the evaluation.
-/
structure Machine.Inspection (P : Program) (id : ThreadId) (m : Machine) (r : Option Halt)
    (m' : Machine) (events : List Event) : Prop where
  history : m'.history = events ++ m.history
  breakpoints : m'.breakpoints = m.breakpoints
  interrupt : m'.scheduler.interrupt = m.scheduler.interrupt
  grows : m.stops.size ≤ m'.stops.size
  /-- The debugger is shown nothing, unless a call comes back to a place where the thread stops. -/
  quiet : ¬(m.StopsOnReturn P id events ∧ m.Attended) → m'.stops = m.stops ∧ m'.link = m.link
  still : ¬(m.StopsOnReturn P id events ∧ m.link.isSome) → (m'.thread id).step = (m.thread id).step
  /-- But if one does, the debugger is shown a stop, unless the evaluation is cut off. -/
  heard : m.StopsOnReturn P id events → m.Attended → r ≠ some .exhausted →
    m.stops.size < m'.stops.size

namespace Machine

variable {P : Program} {id : ThreadId} {m m₁ m₂ : Machine} {r : Option Halt}
  {events later : List Event}

theorem not_stopsOnReturn_nil : ¬m.StopsOnReturn P id [] :=
  fun ⟨_, _, _, hmem, _⟩ => List.not_mem_nil hmem

theorem stopsOnReturn_append :
    m.StopsOnReturn P id (later ++ events) ↔
      m.StopsOnReturn P id later ∨ m.StopsOnReturn P id events := by
  simp only [StopsOnReturn, List.mem_append]
  grind

theorem stopsOnReturn_congr (hstep : (m₁.thread id).step = (m.thread id).step) :
    m₁.StopsOnReturn P id events ↔ m.StopsOnReturn P id events := by
  rw [StopsOnReturn, StopsOnReturn, hstep]

theorem attended_congr (hlink : m₁.link = m.link) : m₁.Attended ↔ m.Attended := by
  rw [Attended, Attended, hlink]

namespace Inspection

theorem ofFrame (h : m.Frame id m₁) : m.Inspection P id r m₁ [] where
  history := h.history
  breakpoints := h.breakpoints
  interrupt := h.interrupt
  grows := h.stops ▸ Nat.le_refl _
  quiet _ := ⟨h.stops, h.link⟩
  still _ := h.step
  heard hreturn := absurd hreturn not_stopsOnReturn_nil

/-- One part after another, for `Inspection`. The step target and the debugger are as in the
beginning until a call comes back to a place where the thread stops. -/
theorem trans (h : m.Inspection P id none m₁ events) (h' : m₁.Inspection P id r m₂ later) :
    m.Inspection P id r m₂ (later ++ events) where
  history := by rw [h'.history, h.history, List.append_assoc]
  breakpoints := h'.breakpoints.trans h.breakpoints
  interrupt := h'.interrupt.trans h.interrupt
  grows := Nat.le_trans h.grows h'.grows
  quiet hn := by
    rw [stopsOnReturn_append, not_and] at hn
    obtain ⟨hstops, hlink⟩ := h.quiet fun ⟨hreturn, hattended⟩ => hn (.inr hreturn) hattended
    obtain ⟨hstops', hlink'⟩ := h'.quiet fun ⟨hreturn, hattended⟩ => by
      rw [attended_congr hlink] at hattended
      have hstill := h.still fun ⟨hreturn, _⟩ => hn (.inr hreturn) hattended
      exact hn (.inl ((stopsOnReturn_congr hstill).1 hreturn)) hattended
    exact ⟨hstops'.trans hstops, hlink'.trans hlink⟩
  still hn := by
    rw [stopsOnReturn_append, not_and] at hn
    have hstill := h.still fun ⟨hreturn, hlink⟩ => hn (.inr hreturn) hlink
    refine (h'.still fun ⟨hreturn, hlink⟩ => ?_).trans hstill
    -- Without a debugger in the beginning there is none in between either.
    have hnone := hn (.inl ((stopsOnReturn_congr hstill).1 hreturn))
    have hlinks := (h.quiet fun ⟨_, link, hlink, _⟩ => hnone (hlink ▸ rfl)).2
    exact hnone (hlinks ▸ hlink)
  heard hreturn hattended hr := by
    -- If the first part is not heard, then the second one begins with the same debugger and the
    -- same step target as the first.
    by_cases hfirst : m.StopsOnReturn P id events
    · exact Nat.lt_of_lt_of_le (h.heard hfirst hattended nofun) h'.grows
    · obtain ⟨hstops, hlink⟩ := h.quiet fun ⟨hreturn, _⟩ => hfirst hreturn
      have hstill := h.still fun ⟨hreturn, _⟩ => hfirst hreturn
      have hsecond := (stopsOnReturn_append.1 hreturn).resolve_right hfirst
      rw [← hstops]
      exact h'.heard ((stopsOnReturn_congr hstill).2 hsecond) ((attended_congr hlink).2 hattended)
        hr

theorem frame (h : m.Inspection P id r m₁ events) (h' : m₁.Frame id m₂) :
    m.Inspection P id r m₂ events where
  history := h'.history.trans h.history
  breakpoints := h'.breakpoints.trans h.breakpoints
  interrupt := h'.interrupt.trans h.interrupt
  grows := h'.stops ▸ h.grows
  quiet hn := ⟨h'.stops.trans (h.quiet hn).1, h'.link.trans (h.quiet hn).2⟩
  still hn := h'.step.trans (h.still hn)
  heard hreturn hattended hr := h'.stops ▸ h.heard hreturn hattended hr

theorem ofEvent {event : Event} (hhistory : m₁.history = event :: m.history)
    (hbreakpoints : m₁.breakpoints = m.breakpoints)
    (hinterrupt : m₁.scheduler.interrupt = m.scheduler.interrupt) (hstops : m₁.stops = m.stops)
    (hlink : m₁.link = m.link) (hstep : (m₁.thread id).step = (m.thread id).step)
    (hunheard : m.StopsOnReturn P id [event] → ¬m.Attended) :
    m.Inspection P id r m₁ [event] where
  history := hhistory
  breakpoints := hbreakpoints
  interrupt := hinterrupt
  grows := hstops ▸ Nat.le_refl _
  quiet _ := ⟨hstops, hlink⟩
  still _ := hstep
  heard hreturn hattended := absurd hattended (hunheard hreturn)

/-- A call that comes back to a place where the thread stops: there it is shown to the debugger. -/
theorem ofReturn (hhistory : m₁.history = events ++ m.history)
    (hbreakpoints : m₁.breakpoints = m.breakpoints)
    (hinterrupt : m₁.scheduler.interrupt = m.scheduler.interrupt)
    (hreturn : m.StopsOnReturn P id events) (hattended : m.Attended)
    (hgrows : m.stops.size ≤ m₁.stops.size)
    (hheard : r ≠ some .exhausted → m.stops.size < m₁.stops.size) :
    m.Inspection P id r m₁ events where
  history := hhistory
  breakpoints := hbreakpoints
  interrupt := hinterrupt
  grows := hgrows
  quiet hn := absurd ⟨hreturn, hattended⟩ hn
  still hn := by
    obtain ⟨link, hlink, -⟩ := hattended
    exact absurd ⟨hreturn, hlink ▸ rfl⟩ hn
  heard _ _ := hheard

end Inspection

end Machine

/-- What evaluations for the debugger do to the debugger, on a thread that is in such an
evaluation. -/
def inspectionEffect (P : Program) (id : ThreadId) : Effect P .all (· = id) where
  Inv m := m.Has id ∧ 0 < m.depth id
  Rel m r m' := m'.depth id = m.depth id ∧ ∃ events, m.Inspection P id r m' events
  delegates := P.delegates_from_all
  refl hi := ⟨rfl, [], .ofFrame (.refl hi.1)⟩
  ends hi _ := ⟨rfl, [], .ofFrame (.refl hi.1)⟩
  trans := by
    rintro m m₁ m₂ r - ⟨hdepth, events, h⟩ ⟨hdepth', later, h'⟩
    exact ⟨hdepth'.trans hdepth, _, h.trans h'⟩
  recover := by
    rintro m m' halt ⟨hdepth, events, h⟩ hh
    refine ⟨hdepth, events, { h with heard := fun hreturn hattended _ => ?_ }⟩
    refine h.heard hreturn hattended fun hexhausted => ?_
    rw [Option.some.inj hexhausted] at hh
    cases hh
  step := by
    rintro m m' ⟨hm, hpos⟩ hs
    obtain ⟨hframe, hdepth⟩ := hs.frame hm
    exact ⟨⟨hframe.has, hdepth ▸ hpos⟩, hdepth, [], .ofFrame hframe⟩
  enter := by
    rintro m g _ - rfl ⟨hm, hpos⟩
    exact ⟨(g.frame_enter hm).has, g.depth_enter hm ▸ Nat.add_pos_left hpos _⟩
  leave := by
    rintro m m' r g _ - rfl - ⟨hm, hpos⟩ ⟨hdepth, events, h⟩ ⟨hm', -⟩
    have hdepth' := g.depth_leave_enter hm hm' hdepth
    have hguard := (Machine.Inspection.ofFrame (g.frame_enter hm)).trans h
    exact ⟨⟨(g.frame_leave hm').has, hdepth' ▸ hpos⟩, hdepth', _, hguard.frame (g.frame_leave hm')⟩

instance {P : Program} {id : ThreadId} : (inspectionEffect P id).Charges where
  charge := by
    rintro m id duration rfl ⟨hm, hpos⟩ -
    obtain ⟨hframe, hdepth⟩ := Machine.Frame.charge id duration hm
    exact ⟨⟨hframe.has, hdepth ▸ hpos⟩, hdepth, [], .ofFrame hframe⟩

theorem StepTarget.isSome_of_stopsAt {step : StepTarget} {line : Nat} {c : Context}
    (h : step.stopsAt line c = true) : step.line.isSome = true := by
  unfold stopsAt at h
  split at h
  · cases h
  · next hline => rw [hline, Option.isSome_some]

namespace inspectionEffect

variable {P : Program} {E : Engine} {id : ThreadId} {α : Type} {Q : α → α → Prop} {c : Context}
  {location : Location} {m : Machine}

def inspects (P : Program) (id : ThreadId) : (inspectionEffect P id).Inspects where
  Watch _ := True
  swallow := by
    rintro m m' _ halt e - rfl hi hrel hi' hh
    obtain ⟨hdepth, events, h⟩ :=
      ((inspectionEffect P _).leave (.within .debugging) trivial rfl (Guard.opens_within _ _ _) hi
        hrel hi').2
    refine ⟨hdepth, events, { h with heard := fun hreturn hattended _ => ?_ }⟩
    exact h.heard hreturn hattended fun hexhausted => hh (Option.some.inj hexhausted)

theorem isDebugging (hi : (inspectionEffect P id).Inv m) (hc : c.thread = id) :
    (m.thread c.thread).isDebugging = true := by
  subst hc
  exact decide_eq_true hi.2

theorem arrive {node : Node} (hc : c.thread = id) :
    (inspectionEffect P id).Does Eq
      (do Eval.note (.visit node); E.check node.id node.location c) := by
  intro m _ hi
  have hrun : (do Eval.note (.visit node); E.check node.id node.location c) m =
      (.ok (), { m with
        history := .visit node :: m.history
        hits := m.hits.hit node.location.counter }) := by
    refine (bind_of_ok rfl).trans ?_
    rw [Engine.check_apply]
    -- The check returns at once on a thread that evaluates for the debugger.
    exact if_pos (isDebugging hi hc)
  rw [hrun]
  refine ⟨rfl, Machine.from_all _, hi, ⟨rfl, [.visit node], ?_⟩, .value rfl⟩
  refine .ofEvent rfl rfl rfl rfl rfl rfl ?_
  rintro ⟨-, location, c, hmem, -⟩
  cases List.mem_singleton.1 hmem

theorem reads_thread (hc : c.thread = id) :
    (inspectionEffect P id).Does (Same (·.isDebugging = true)) (Eval.thread c.thread) :=
  .reads fun _ _ hi => ⟨rfl, isDebugging hi hc⟩

theorem raise {v : Value} (hc : c.thread = id) :
    (inspectionEffect P id).Does Q (E.raise v location c) := by
  refine .bind (reads_thread hc) ?_
  rintro t _ ⟨rfl, ht⟩
  dsimp only
  rw [if_pos ht]
  exact fun m hm hi => Effect.Post.throw (.inl rfl) (Value.from_all v) hm hi

theorem fail {code : Code} {message : String} (hc : c.thread = id) :
    (inspectionEffect P id).Does Q (E.fail code message location c) := by
  unfold Engine.fail
  split
  · exact raise hc
  · refine .bindEq (.bind (reads_thread hc) ?_) fun _ m hm hi => ?_
    · rintro t _ ⟨rfl, ht⟩
      rw [if_pos ht]
      exact .pure rfl
    · exact Effect.Post.throw (.inl rfl) trivial hm hi

/-! ### Coming back from a call -/

/-- Going on after a stop concerns the thread that stopped, and shows nothing to the debugger. -/
structure Resumed (id : ThreadId) (m m' : Machine) : Prop where
  has : m'.Has id
  depth : m'.depth id = m.depth id
  history : ∃ events, m'.history = events ++ m.history
  breakpoints : m'.breakpoints = m.breakpoints
  interrupt : m'.scheduler.interrupt = m.scheduler.interrupt
  stops : m'.stops = m.stops

theorem resume_apply (command : Command) (location : Location) (hm : m.Has c.thread) :
    Resumed c.thread m (Engine.resume command location c m).2 := by
  have hstep : ∀ step : StepTarget,
      Resumed c.thread m (m.modifyThread c.thread (·.stepTo step)) := fun step =>
    ⟨hm.modifyRecord fun _ => rfl,
      Machine.thread_modifyRecord (·.debugDepth) (fun _ => rfl) fun _ => rfl,
      ⟨[], rfl⟩, rfl, rfl, rfl⟩
  unfold Engine.resume
  cases command with
  | «continue» | stepIn | stepOver => exact hstep _
  | stepOut => cases c.rootOf.around <;> exact hstep _
  | terminate => exact { hstep {} with history := ⟨[_], rfl⟩ }

/-- A stop at the return of a call is shown to the debugger. -/
theorem suspend_apply (S : (inspectionEffect P id).Sound E) (reason : StopReason)
    (location : Location) {link : Link} {event : Event} (hc : c.thread = id)
    (hi : (inspectionEffect P id).Inv m)
    (hreturn : m.StopsOnReturn P id [event]) (hlink : m.link = some link) :
    let out := E.suspend reason location c { m with history := event :: m.history }
    (inspectionEffect P id).Inv out.2 ∧ (inspectionEffect P id).Rel m (Halt.of? out.1) out.2 := by
  intro out
  have hsuspend : out = (E.consult link reason location c >>= fun command =>
      Engine.resume command location c) { m with history := event :: m.history } := by
    refine (E.suspend_apply reason location c _).trans ?_
    rw [hlink]
  subst hc
  rw [hsuspend]
  cases hattending : link.isAttending with
  -- A debugger that has gone lets the thread go on, which forgets the step target.
  | false =>
    have hconsult : E.consult link reason location c = Pure.pure .continue :=
      if_neg (Bool.not_eq_true _ ▸ hattending)
    rw [hconsult]
    have hresumed := resume_apply (m := { m with history := event :: m.history }) .continue
      location hi.1
    refine ⟨⟨hresumed.has, hresumed.depth ▸ hi.2⟩, hresumed.depth, [event], ?_⟩
    have hattended : ¬m.Attended := by
      rintro ⟨l, hl, hattends⟩
      rw [hlink] at hl
      rw [← Option.some.inj hl, hattending] at hattends
      cases hattends
    exact ⟨rfl, rfl, rfl, Nat.le_refl _, fun _ => ⟨rfl, rfl⟩,
      fun hn => absurd ⟨hreturn, hlink ▸ rfl⟩ hn, fun _ h => absurd h hattended⟩
  | true =>
    have hattended : m.Attended := ⟨link, hlink, hattending⟩
    obtain ⟨m₁, hi₁, ⟨⟨hdepth, events, h⟩, hconsult⟩ | ⟨⟨hdepth, events, h⟩, stop, -, hconsult⟩⟩ :=
      (inspects P c.thread).consult_apply S reason location hattending
        (fun _ _ => ⟨trivial, trivial⟩) c.from_all rfl
        (m := { m with history := event :: m.history }) (Machine.from_all _) hi
    -- A watch expression is cut off before the stop is shown.
    · rw [bind_of_error hconsult]
      refine ⟨hi₁, hdepth, events ++ [event], .ofReturn ?_ h.breakpoints h.interrupt
        (Machine.stopsOnReturn_append.2 (.inr hreturn)) hattended h.grows fun hr => absurd rfl hr⟩
      rw [h.history, List.append_assoc]
      rfl
    -- The stop is shown, and the thread goes on as it is told.
    · rw [bind_of_ok hconsult]
      have hresumed := resume_apply (m := m₁.reported link stop) link.answer.1 location hi₁.1
      obtain ⟨later, hlater⟩ := hresumed.history
      have hheard : m.stops.size <
          (Engine.resume link.answer.1 location c (m₁.reported link stop)).2.stops.size := by
        rw [hresumed.stops, Machine.reported, Array.size_push]
        exact Nat.lt_succ_of_le h.grows
      refine ⟨⟨hresumed.has, hresumed.depth ▸ hi₁.2⟩, hresumed.depth.trans hdepth,
        later ++ (events ++ [event]), .ofReturn ?_ (hresumed.breakpoints.trans h.breakpoints)
          (hresumed.interrupt.trans h.interrupt)
          (Machine.stopsOnReturn_append.2 (.inr (Machine.stopsOnReturn_append.2 (.inr hreturn))))
          hattended (Nat.le_of_lt hheard) fun _ => hheard⟩
      rw [hlater, List.append_assoc, List.append_assoc]
      exact congrArg (later ++ ·) h.history

theorem comeBack (S : (inspectionEffect P id).Sound E) {stepping : Bool} {inner : Context}
    (hc : c.thread = id) (hinner : inner.thread = id) :
    (inspectionEffect P id).Does Eq (E.comeBack stepping location c inner) := by
  intro m hm hi
  let event : Event := .returned stepping location c
  let m₀ : Machine := { m with history := event :: m.history }
  have hrun : E.comeBack stepping location c inner m =
      (if stepping && (m.thread c.thread).isStepping && !E.settings.isRealTime
          && (m.thread c.thread).step.stopsAt location.line c then
        E.suspend .step location inner else Pure.pure ()) m₀ := rfl
  subst hc
  rw [hrun]
  split
  · next hstops =>
    simp only [Bool.and_eq_true, Bool.not_eq_true'] at hstops
    obtain ⟨⟨⟨rfl, -⟩, hreal⟩, hat⟩ := hstops
    have hreturn : m.StopsOnReturn P c.thread [event] :=
      ⟨S.program ▸ hreal, location, c, List.mem_singleton_self _, hat⟩
    cases hlink : m.link with
    | none =>
      have hsuspend : E.suspend .step location inner m₀ = (.ok (), m₀) := by
        rw [E.suspend_apply, show m₀.link = none from hlink]
      have hattended : ¬m.Attended := fun ⟨_, hl, _⟩ => nomatch hlink.symm.trans hl
      rw [hsuspend]
      have hevent : m.Inspection P c.thread none m₀ [event] :=
        .ofEvent rfl rfl rfl rfl rfl rfl fun _ => hattended
      exact ⟨rfl, m₀.from_all, hi, ⟨rfl, _, hevent⟩, .value rfl⟩
    | some link =>
      obtain ⟨hinv, hrel⟩ := suspend_apply S .step location hinner hi hreturn hlink
      exact ⟨rfl, Machine.from_all _, hinv, hrel, .refl_all _⟩
  · next hstops =>
    have hreturn : ¬m.StopsOnReturn P c.thread [event] := by
      rintro ⟨hreal, l, c', hmem, hat⟩
      -- The only event is this return, which has just been found not to stop the thread.
      have hevent : Event.returned true l c' = .returned stepping location c :=
        List.mem_singleton.1 hmem
      cases hevent
      refine hstops ?_
      have hstepping : (m.thread c.thread).isStepping = true := StepTarget.isSome_of_stopsAt hat
      simp only [hstepping, hat, Engine.settings, S.program, hreal, Bool.and_self, Bool.not_false]
    have hevent : m.Inspection P c.thread none m₀ [event] :=
      .ofEvent rfl rfl rfl rfl rfl rfl fun h => absurd h hreturn
    exact ⟨rfl, m₀.from_all, hi, ⟨rfl, _, hevent⟩, .value rfl⟩

theorem leaves (S : (inspectionEffect P id).Sound E) : (inspectionEffect P id).Leaves E where
  toSound := S
  arrive _ _ hc := arrive hc
  fail _ hc := fail hc
  raise _ _ hc := raise hc
  comeBack _ hc _ hinner := comeBack S hc hinner

end inspectionEffect

/-- Something that the debugger evaluates on a thread that has stopped, or is about to. -/
inductive Query where
  | expr (e : Expr)
  /-- The `condition` of a stoppoint. -/
  | condition (hits : Nat) (location : Location) (e : Expr)
  /-- The expressions of a tracepoint. -/
  | trace (es : List Expr)

def Query.run (E : Engine) (c : Context) : Query → Eval Unit
  | .expr e => do let _ ← E.inspect e c
  | .condition hits location e => do let _ ← E.stopsOn hits location c (.expr e)
  | .trace es => do let _ ← E.traceTexts c es

/-- The evaluation does to the debugger what evaluations for the debugger do. -/
def Inspecting {α : Type} (P : Program) (id : ThreadId) (x : Eval α) : Prop :=
  ∀ m : Machine, m.Has id →
    (x m).2.Has id ∧ ∃ events, m.Inspection P id (Halt.of? (x m).1) (x m).2 events

namespace Inspecting

variable {α β : Type} {P : Program} {id : ThreadId} {x : Eval α} {f : α → Eval β} {E : Engine}
  {c : Context}

theorem reads {g : Machine → α} : Inspecting P id (Eval.reads g) :=
  fun _ hm => ⟨hm, [], .ofFrame (.refl hm)⟩

theorem pure {a : α} : Inspecting P id (Pure.pure a) :=
  .reads

theorem bind (hx : Inspecting P id x) (hf : ∀ a, Inspecting P id (f a)) :
    Inspecting P id (x >>= f) := by
  intro m hm
  obtain ⟨hm₁, events, h⟩ := hx m hm
  rcases hrun : x m with ⟨r, m₁⟩
  rw [hrun] at hm₁ h
  cases r with
  | error halt =>
    rw [bind_of_error hrun]
    exact ⟨hm₁, events, h⟩
  | ok a =>
    rw [bind_of_ok hrun]
    obtain ⟨hm₂, later, h'⟩ := hf a m₁ hm₁
    exact ⟨hm₂, _, h.trans h'⟩

theorem outcome {Q : α → α → Prop} (hx : (inspectionEffect P id).Holds Q x x) :
    Inspecting P id (Eval.within .debugging id x).outcome := by
  intro m hm
  let g : Guard := .within .debugging
  have hinv : (inspectionEffect P id).Inv (g.enter id m) :=
    ⟨(g.frame_enter hm).has, g.depth_enter hm ▸ Nat.succ_pos _⟩
  have hpost := hx _ (Machine.from_all _) hinv
  obtain ⟨-, events, h⟩ := hpost.rel
  have hframe : (x (g.enter id m)).2.Frame id (g.leave id (x (g.enter id m)).2) :=
    g.frame_leave hpost.inv.1
  have hhas := hframe.has
  have hleft := ((Machine.Inspection.ofFrame (g.frame_enter hm)).trans h).frame hframe
  rcases hrun : x (g.enter id m) with ⟨r, m₁⟩
  have hwithin := Guard.within_of_run hrun
  rw [hrun] at hhas hleft
  cases r with
  | ok a =>
    rw [outcome_of_ok hwithin]
    exact ⟨hhas, _, hleft⟩
  | error halt =>
    by_cases hh : halt = .exhausted
    · subst hh
      rw [outcome_of_exhausted hwithin]
      exact ⟨hhas, _, hleft⟩
    · rw [outcome_of_error hwithin hh]
      refine ⟨hhas, _, { hleft with heard := fun hreturn hattended _ => ?_ }⟩
      exact hleft.heard hreturn hattended fun hexhausted => hh (Option.some.inj hexhausted)

theorem inspect (S : (inspectionEffect P c.thread).Sound E) (e : Expr) :
    Inspecting P c.thread (E.inspect e c) :=
  .outcome (S.expr trivial c.from_all rfl)

theorem reaction (S : (inspectionEffect P c.thread).Sound E) :
    Reaction (fun _ x _ => Inspecting P c.thread x) E E c c where
  pure := .pure
  bindEq := .bind
  heap := .reads
  log _ _ hm := ⟨hm, [], .ofFrame ⟨⟨rfl, rfl, rfl, rfl, rfl⟩, hm, rfl⟩⟩
  inspect _ := .inspect S _
  asks _ := by
    refine .outcome (Q := Eq) (.bind (S.expr trivial c.from_all rfl) ?_)
    rintro v _ ⟨rfl, -⟩
    refine .bindEq (.reads fun _ _ _ => rfl) fun h => ?_
    unfold Engine.lift
    split
    · exact .pure rfl
    · exact inspectionEffect.fail rfl

theorem condition (S : (inspectionEffect P c.thread).Sound E) (hits : Nat) (location : Location)
    (e : Expr) : Inspecting P c.thread (E.stopsOn hits location c (.expr e)) :=
  (reaction S).stopsOn fun _ _ => trivial

theorem trace (S : (inspectionEffect P c.thread).Sound E) (es : List Expr) :
    Inspecting P c.thread (E.traceTexts c es) :=
  (reaction S).traceTexts fun _ _ => trivial

end Inspecting

/-- An evaluation for the debugger (`Inspection`) meets no breakpoint and takes no request. It shows
a stop to the debugger and changes where the thread stops next just if a call of an operation of an
object comes back to a place where the thread, stepping as it was, stops. -/
theorem query_reenters_on_return (P : Program) (bound : Nat) (query : Query) (c : Context)
    (m : Machine) (hthread : m.Has c.thread) :
    let out := query.run (P.engine bound) c m
    ∃ events, m.Inspection P c.thread (Halt.of? out.1) out.2 events := by
  have S := (inspectionEffect P c.thread).run Origin.closed_all
    (fun _ => inspectionEffect.leaves) bound
  have hquery : Inspecting P c.thread (query.run (P.engine bound) c) := by
    cases query with
    | expr e => exact .bind (.inspect S e) fun _ => .pure
    | condition hits location e => exact .bind (.condition S hits location e) fun _ => .pure
    | trace es => exact .bind (.trace S es) fun _ => .pure
  exact (hquery m hthread).2

/-- A class whose constructor calls an operation of the new object. -/
def echoClass : ClassDef :=
  { name := "Echo", location := .onLine 1
    instanceVars := [], values := [], functions := [], invariants := [], thread := none
    operations := [.plain "Echo" "ping" (.onLine 2 .skip),
      .plain "Echo" "Echo" (.onLine 3 (.callObject (.onLine 3 .selfRef)
        { module := "Echo", text := "ping" } []))] }

def echoProgram : Program :=
  { model := { classes := [echoClass] } }

def echoStopped : Machine :=
  { (Machine.initial echoProgram {}).modifyThread mainThread (·.stepTo { line := some 9 }) with
    link := some {} }

def echoContext : Context :=
  { inner := { id := 0, title := "entry", location := .onLine 9, root := some { kind := .global } }
    thread := mainThread }

def echoQuery : Query :=
  .expr (.onLine 9 (.new "Echo" []))

/-- With the `echoQuery` the thread stops again, in the constructor. -/
theorem query_reenters_on_return_echo :
    let out := echoQuery.run (echoProgram.engine 9) echoContext echoStopped
    echoStopped.Has echoContext.thread ∧ out.2.stops.toList.map (·.location.line) = [3] ∧
      ∃ events, echoStopped.Inspection echoProgram echoContext.thread (Halt.of? out.1)
        out.2 events := by
  have hthread : echoStopped.Has echoContext.thread := by decide +kernel
  exact ⟨hthread, by decide +kernel,
    query_reenters_on_return echoProgram 9 echoQuery echoContext echoStopped hthread⟩

/-- So it is not true that evaluations for the debugger (`Query`) never come back to it. -/
theorem not_query_unnoticed :
    ¬∀ (P : Program) (bound : Nat) (query : Query) (c : Context) (m : Machine), m.Has c.thread →
      let m' := (query.run (P.engine bound) c m).2
      m'.stops = m.stops ∧ (m'.thread c.thread).step = (m.thread c.thread).step ∧
        m'.breakpoints = m.breakpoints ∧ m'.scheduler.interrupt = m.scheduler.interrupt := by
  intro h
  have hthread : echoStopped.Has echoContext.thread := by decide +kernel
  obtain ⟨hstops, -⟩ := h echoProgram 9 echoQuery echoContext echoStopped hthread
  have hsize := congrArg Array.size hstops
  revert hsize
  decide +kernel

end Animator

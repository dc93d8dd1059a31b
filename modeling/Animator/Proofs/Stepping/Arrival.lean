import Animator.Proofs.Inspection
import Animator.Proofs.Stepping.Frames
import Animator.Proofs.Stepping.Skipping

/-!
# Stepping over calls

The frames that a step passes over do not hold the thread up, and the thread stops in the frames in
which the step ends. There is one exception to the latter. A breakpoint at a node takes effect
before the thread stops there; and if an expression of the breakpoint has the thread stopped, on the
return of a call, then the step is over before its end is reached.
-/

namespace Animator

/-! ### Stopping at a node -/

section Displays

variable {P : Program} {α β : Type} {x : Eval α} {f : α → Eval β} {c : Context}
  {location : Location} {m m₁ : Machine} {bound : Nat}

theorem bind_eq_bind {y : Eval α} (h : x m = y m₁) : (x >>= f) m = (y >>= f) m₁ := by
  rcases hrun : y m₁ with ⟨result, m₂⟩
  cases result with
  | error halt => rw [bind_of_error (h.trans hrun), bind_of_error hrun]
  | ok a => rw [bind_of_ok (h.trans hrun), bind_of_ok hrun]

/-- The thread stops at a place, unless the evaluation is cut off before that. -/
def Machine.Displays (c : Context) (location : Location) (m : Machine)
    (out : Except Halt α × Machine) : Prop :=
  out.1 = .error .exhausted ∨
    ∃ stop ∈ m.news out.2, stop.IsAt stop.reason location c ∧ stop.reason.counts true = true

theorem Machine.Displays.bind (hx : m.Displays c location (x m)) (hadvances : m.Advances (x m).2)
    (hf : ∀ a (m' : Machine), m'.Advances (f a m').2) : m.Displays c location ((x >>= f) m) := by
  rcases hrun : x m with ⟨result, m₁⟩
  rw [hrun] at hx hadvances
  cases result with
  | error halt =>
    rw [bind_of_error hrun]
    exact hx.imp_left fun h => congrArg Except.error (Except.error.inj h)
  | ok a =>
    rw [bind_of_ok hrun]
    obtain ⟨stop, hmem, hstop⟩ := hx.resolve_left nofun
    refine .inr ⟨stop, ?_, hstop⟩
    rw [hadvances.news_append (hf a m₁)]
    exact List.mem_append_left _ hmem

theorem Machine.Displays.before (h : m.Advances m₁) {out : Except Halt α × Machine}
    (hadvances : m₁.Advances out.2) (hs : m₁.Displays c location out) :
    m.Displays c location out := by
  refine hs.imp_right fun ⟨stop, hmem, hstop⟩ => ⟨stop, ?_, hstop⟩
  rw [h.news_append hadvances]
  exact List.mem_append_right _ hmem

theorem Machine.Attended.displays_suspend (hm : m.Attended) {reason : StopReason}
    (hreason : reason.counts true = true) :
    m.Displays c location ((P.engine bound).suspend reason location c m) := by
  obtain ⟨link, hlink, hattending⟩ := hm
  rw [Engine.suspend_apply, hlink]
  obtain ⟨m₁, -, ⟨-, hconsult⟩ | ⟨hadvances, stop, hstop, hconsult⟩⟩ :=
    (advanceDrift P).inspects.consult_apply (advanceDrift.sound P bound) reason location
      hattending (fun _ _ => ⟨trivial, trivial⟩) c.from_all trivial m.from_all trivial
  · exact .inl (congrArg Prod.fst (bind_of_error hconsult))
  · dsimp only
    rw [bind_of_ok hconsult]
    have hreported := hadvances.trans (.reported link stop)
    refine .inr ⟨stop, ?_, hstop.reason ▸ hstop, hstop.reason ▸ hreason⟩
    rw [hreported.news_append (advanceDrift.advances_resume _ _ _ _),
      Machine.news_reported hadvances]
    exact List.mem_append_left _ (List.mem_append_right _ (List.mem_singleton_self _))

theorem inspectionEffect.sound (P : Program) (id : ThreadId) (bound : Nat) :
    (inspectionEffect P id).Sound (P.engine bound) :=
  (inspectionEffect P id).run Origin.closed_all (fun _ => inspectionEffect.leaves) bound

theorem Inspecting.apply {Q : α → α → Prop} {id : ThreadId} (hx : Inspecting P id x)
    (hcut : EndsBy (· = .exhausted) x) (hadvance : (advanceDrift P).effect.Holds Q x x)
    (hm : m.Has id) :
    (∃ m₁, x m = (.error .exhausted, m₁)) ∨
      ∃ a m₁ events, m₁.Has id ∧ m.Advances m₁ ∧ m.Inspection P id none m₁ events ∧
        x m = (.ok a, m₁) := by
  obtain ⟨hm₁, events, h⟩ := hx m hm
  have hadvances := advanceDrift.advances hadvance m
  rcases hrun : x m with ⟨result, m₁⟩
  rw [hrun] at hm₁ h hadvances
  cases result with
  | error halt => exact .inl ⟨m₁, by rw [hcut.halt hrun]⟩
  | ok a => exact .inr ⟨a, m₁, events, hm₁, hadvances, h, rfl⟩

/-- A `breakpoint` that is met evaluates its expressions for the debugger, and then it stops the
thread or does not. -/
theorem Engine.takeEffect_apply (P : Program) (bound : Nat) (b : Breakpoint) (location : Location)
    (hm : m.Has c.thread) :
    ((P.engine bound).takeEffect b location c m).1 = .error .exhausted ∨
      ∃ m₁ events, m₁.Has c.thread ∧ m.Advances m₁ ∧ m.Inspection P c.thread none m₁ events ∧
        (b.kind.exprs = [] → events = []) ∧
        ((P.engine bound).takeEffect b location c m = (.ok false, m₁) ∨
          (P.engine bound).takeEffect b location c m =
            (do (P.engine bound).suspend (.breakpoint b.number) location c; return true) m₁) := by
  have S := inspectionEffect.sound P c.thread bound
  have hframe : m.Inspection P c.thread none m [] := .ofFrame (.refl hm)
  unfold Engine.takeEffect
  cases b.kind with
  | stop condition =>
    cases condition with
    | always => exact .inr ⟨m, [], hm, .refl, hframe, fun _ => rfl, .inr rfl⟩
    | hits h =>
      refine .inr ⟨m, [], hm, .refl, hframe, fun _ => rfl, ?_⟩
      cases hstops : h.holds (b.hits + 1) with
      | true => exact .inr (bind_of_ok (congrArg (fun stops => (Except.ok stops, m)) hstops))
      | false => exact .inl (bind_of_ok (congrArg (fun stops => (Except.ok stops, m)) hstops))
    | expr e =>
      have hasks := (Inspecting.condition S (b.hits + 1) location e).apply
        ((Ends.reaction (p := (· = .exhausted)) rfl).stopsOn fun _ _ => trivial)
        ((advanceDrift.reaction P bound c).stopsOn fun _ _ => ⟨trivial, trivial⟩) hm
      rcases hasks with ⟨m₁, hrun⟩ | ⟨stops, m₁, events, hm₁, hadvances, h, hrun⟩
      · exact .inl (congrArg Prod.fst (bind_of_error hrun))
      · refine .inr ⟨m₁, events, hm₁, hadvances, h, nofun, ?_⟩
        cases stops with
        | true => exact .inr (bind_of_ok hrun)
        | false => exact .inl (bind_of_ok hrun)
  | trace es =>
    have hasks : (∃ m₁, (P.engine bound).traceTexts c es m = (.error .exhausted, m₁)) ∨
        ∃ texts m₁ events, m₁.Has c.thread ∧ m.Advances m₁ ∧
          m.Inspection P c.thread none m₁ events ∧ (es = [] → events = []) ∧
          (P.engine bound).traceTexts c es m = (.ok texts, m₁) := by
      cases es with
      | nil => exact .inr ⟨[], m, [], hm, .refl, hframe, fun _ => rfl, rfl⟩
      | cons e rest =>
        refine ((Inspecting.trace S (e :: rest)).apply
          ((Ends.reaction (p := (· = .exhausted)) rfl).traceTexts fun _ _ => trivial)
          ((advanceDrift.reaction P bound c).traceTexts fun _ _ => ⟨trivial, trivial⟩) hm).imp_right
            ?_
        rintro ⟨texts, m₁, events, hm₁, hadvances, h, hrun⟩
        exact ⟨texts, m₁, events, hm₁, hadvances, h, nofun, hrun⟩
    rcases hasks with ⟨m₁, hrun⟩ | ⟨texts, m₁, events, hm₁, hadvances, h, hexprs, hrun⟩
    · exact .inl (congrArg Prod.fst (bind_of_error hrun))
    · -- What is written to the log is no business of the debugger.
      have hlog : ∀ log, m₁.Frame c.thread { m₁ with log } := fun _ =>
        ⟨⟨rfl, rfl, rfl, rfl, rfl⟩, hm₁, rfl⟩
      refine .inr ⟨_, events, ?_, ?_, ?_, hexprs, .inl (bind_of_ok hrun)⟩
      · exact hm₁
      · exact hadvances.trans (.ofUnseen (hlog _).toUnseen (fun _ h => h) (Nat.le_refl _))
      · exact h.frame (hlog _)
  | «catch» filter => exact .inr ⟨m, [], hm, .refl, hframe, fun _ => rfl, .inl rfl⟩

end Displays

/-- The thread has been told to stop, or the execution to end. -/
def Machine.IsEnding (m : Machine) (id : ThreadId) : Prop :=
  (m.thread id).stopRequested = true ∨ m.scheduler.interrupt = .terminate

/-- What happens when a thread arrives at a node where a step ends. -/
inductive Machine.Arrival (P : Program) (node : Node) (c : Context) (m : Machine)
    (out : Except Halt Unit × Machine) : Prop where
  /-- The evaluation is cut off. -/
  | cutOff (h : out.1 = .error .exhausted)
  | ends (halt : Halt) (h : out.1 = .error halt) (hforced : halt.IsForced)
      (hending : m.IsEnding c.thread)
  /-- The thread stops at the node. -/
  | shown (stop : Stop) (hmem : stop ∈ m.news out.2)
      (hstop : stop.IsAt stop.reason node.location c) (hcounts : stop.reason.counts true = true)
  /-- An expression of a `Breakpoint` at the node comes back to a place where the thread stops. -/
  | reentered (b : Breakpoint) (hb : m.breakpoints.at? node.id = some b)
      (hexprs : b.kind.exprs ≠ []) (events : List Event)
      (hevents : out.2.history = events ++ m.history)
      (hreturn : m.StopsOnReturn P c.thread events)

section Arrival

variable {P : Program} {node : Node} {c : Context} {m : Machine} {bound : Nat}

theorem Machine.Displays.arrival {out : Except Halt Unit × Machine}
    (h : m.Displays c node.location out) : m.Arrival P node c out := by
  rcases h with hcut | ⟨stop, hmem, hstop, hcounts⟩
  · exact .cutOff hcut
  · exact .shown stop hmem hstop hcounts

theorem Machine.Attended.displays_takeTurn (hm : m.Attended) {location : Location}
    (hplain : P.settings.isRealTime = false)
    (hstops : (m.thread c.thread).step.stopsAt location.line c = true) :
    m.Displays c location ((P.engine bound).takeTurn false location c m) := by
  have hturn : (P.engine bound).takeTurn false location c m =
      (P.engine bound).suspend .step location c m := by
    refine (bind_of_ok rfl).trans ?_
    dsimp only
    rw [if_neg, if_pos]
    · simpa using hstops
    · exact fun h => Bool.false_ne_true (hplain.symm.trans h)
  rw [hturn]
  exact hm.displays_suspend rfl

theorem Engine.obey_of_none (hfound : m.breakpoints.at? node.id = none) :
    (P.engine bound).obey node.id node.location c .none m =
      (P.engine bound).takeTurn false node.location c m :=
  bind_of_ok ((P.engine bound).meetBreakpoint_of_none node.location c hfound)

theorem Engine.obey_of_some {b : Breakpoint} (hfound : m.breakpoints.at? node.id = some b) :
    (P.engine bound).obey node.id node.location c .none m =
      ((P.engine bound).takeEffect b node.location c >>= fun stopped =>
        (P.engine bound).takeTurn stopped node.location c)
        { m with breakpoints := m.breakpoints.hit b.number } :=
  bind_eq_bind ((P.engine bound).meetBreakpoint_of_some node.location c hfound)

/-- A thread that arrives (`obey`) at a place where its step ends stops there, before or after the
breakpoint of the node has taken effect, unless the breakpoint has it stopped elsewhere. -/
theorem Machine.Attended.displays_obey (hm : m.Attended) (bound : Nat) (hhas : m.Has c.thread)
    (hplain : P.settings.isRealTime = false)
    (hstops : (m.thread c.thread).step.stopsAt node.location.line c = true) :
    m.Displays c node.location ((P.engine bound).obey node.id node.location c .none m) ∨
      ∃ b, m.breakpoints.at? node.id = some b ∧ b.kind.exprs ≠ [] ∧
        ∃ events, ((P.engine bound).obey node.id node.location c .none m).2.history =
          events ++ m.history ∧ m.StopsOnReturn P c.thread events := by
  cases hfound : m.breakpoints.at? node.id with
  | none =>
    rw [Engine.obey_of_none hfound]
    exact .inl (hm.displays_takeTurn hplain hstops)
  | some b =>
    rw [Engine.obey_of_some hfound]
    let m₁ : Machine := { m with breakpoints := m.breakpoints.hit b.number }
    have hadvances₁ : m.Advances m₁ := .hit b.number
    let turn : Bool → Eval Unit := fun stopped =>
      (P.engine bound).takeTurn stopped node.location c
    have hturn : ∀ stopped, (advanceDrift P).effect.Does Eq (turn stopped) :=
      fun stopped => advanceDrift.takeTurn P bound stopped node.location c
    rcases Engine.takeEffect_apply P bound b node.location (m := m₁) hhas with
      hcut | ⟨m₂, events, hhas₂, hadvances₂, h, hexprs, heffect⟩
    -- The expressions of the breakpoint are cut off.
    · rcases hrun : (P.engine bound).takeEffect b node.location c m₁ with ⟨result, m₂⟩
      rw [hrun] at hcut
      obtain rfl : result = .error .exhausted := hcut
      exact .inl (.inl (congrArg Prod.fst (bind_of_error hrun)))
    -- Otherwise the thread stops for the breakpoint, or it takes its turn.
    · obtain ⟨rest, hrest, hadvance, hshows⟩ : ∃ rest : Eval Unit,
          ((P.engine bound).takeEffect b node.location c >>= turn) m₁ = rest m₂ ∧
            (advanceDrift P).effect.Does Eq rest ∧
            (m₂.Attended → (m₂.thread c.thread).step = (m.thread c.thread).step →
              m₂.Displays c node.location (rest m₂)) := by
        rcases heffect with heffect | heffect
        · refine ⟨turn false, bind_of_ok heffect, hturn false, fun hattended hstep => ?_⟩
          exact hattended.displays_takeTurn hplain (hstep ▸ hstops)
        · have hsuspend := advanceDrift.suspend P bound (.breakpoint b.number) node.location c
          have hreturn : (advanceDrift P).effect.Does Eq
              (do (P.engine bound).suspend (.breakpoint b.number) node.location c; return true) :=
            .bindEq hsuspend fun _ => .pure rfl
          refine ⟨_, bind_eq_bind heffect, .bindEq hreturn hturn, fun hattended _ => ?_⟩
          refine .bind ?_ (advanceDrift.advances hreturn _) fun stopped =>
            advanceDrift.advances (hturn stopped)
          exact .bind (hattended.displays_suspend rfl) (advanceDrift.advances hsuspend _)
            fun _ _ => .refl
      rw [hrest]
      by_cases hreturn : m₁.StopsOnReturn P c.thread events
      · refine .inr ⟨b, rfl, fun hnone => ?_, ?_⟩
        · rw [hexprs hnone] at hreturn
          exact Machine.not_stopsOnReturn_nil hreturn
        · obtain ⟨later, hlater⟩ := (advanceDrift.advances hadvance m₂).history
          refine ⟨later ++ events, ?_, ?_⟩
          · rw [← hlater, h.history, List.append_assoc]
          · refine Machine.stopsOnReturn_append.2 (.inr ?_)
            exact (Machine.stopsOnReturn_congr rfl).1 hreturn
      · -- Nothing has come back to the debugger, so the thread steps as it did.
        have hlink := (h.quiet fun hboth => hreturn hboth.1).2
        have hstill := h.still fun hboth => hreturn hboth.1
        have hattended : m₂.Attended := (Machine.attended_congr hlink).2 hm
        exact .inl ((hshows hattended hstill).before (hadvances₁.trans hadvances₂)
          (advanceDrift.advances hadvance m₂))

/-- Arriving at a node where the step ends, with a debugger that attends. -/
theorem Machine.Attended.arrival (hm : m.Attended) (hhas : m.Has c.thread)
    (hplain : P.settings.isRealTime = false)
    (hdebugging : (m.thread c.thread).isDebugging = false)
    (hstops : (m.thread c.thread).step.stopsAt node.location.line c = true) :
    m.Arrival P node c ((P.engine bound).arrive node c m) := by
  rw [Engine.arrive_apply, hdebugging, if_neg Bool.false_ne_true]
  cases hrequested : (m.thread c.thread).stopRequested with
  | true => exact .ends (.stopped node.location) rfl trivial (.inl hrequested)
  | false =>
    rw [if_neg Bool.false_ne_true]
    have hadvances : m.Advances (m.counted node).taken :=
      ⟨fun h => h, List.prefix_refl _, Nat.le_refl _, List.suffix_cons _ _, Nat.le_refl _⟩
    have hattended : (m.counted node).taken.Attended := hm
    cases hinterrupt : m.scheduler.interrupt with
    | none =>
      have hobey := hattended.displays_obey bound hhas hplain hstops
      rcases hobey with hshows | ⟨b, hb, hexprs, events, hevents, hreturn⟩
      · exact (hshows.before hadvances (advanceDrift.advances_obey P bound node c _)).arrival
      · -- The visit of the node comes before what the breakpoint does.
        refine .reentered b hb hexprs (events ++ [.visit node]) ?_ ?_
        · rw [hevents, List.append_assoc]
          rfl
        · exact Machine.stopsOnReturn_append.2 (.inl ((Machine.stopsOnReturn_congr rfl).1 hreturn))
    | pause =>
      have hsuspend := advanceDrift.suspend P bound .pause node.location c
      exact ((hattended.displays_suspend rfl).before hadvances
        (advanceDrift.advances hsuspend _)).arrival
    | terminate => exact .ends (.cancelled node.location) rfl trivial (.inr hinterrupt)

end Arrival

/-- Stepping over the calls of a frame, or out of the frame.

In the frames that are passed over (`PassesOver`), an evaluation shows nothing but fatal errors to
the debugger and keeps the step target, unless it stops for a breakpoint, a catchpoint or a request
to pause. Anywhere the step target is kept until the thread stops. At a node on another line, in a
frame where the step ends, the thread stops, unless it is ended there or an expression of a
breakpoint at the node has the thread stopped elsewhere. -/
theorem step_passes_over_calls (P : Program) (hplain : P.settings.isRealTime = false)
    {command : Command} (hcommand : command = .stepOver ∨ command = .stepOut) (location : Location)
    {r : Context} (hcaller : r.rootOf.around.isSome) {m₀ : Machine} (hnumbers : r.Numbered m₀)
    (hthread : m₀.Has r.thread) :
    let resumed := Engine.resume command location r m₀
    let step := (resumed.2.thread r.thread).step
    resumed.1 = .ok () ∧
      ∀ (bound : Nat) (node : Node) (c : Context) (m : Machine), c.thread = r.thread →
        m.Has c.thread → (m.thread c.thread).step = step →
        let evaluated := (node.eval (P.engine bound) c m).2
        (command.PassesOver r c →
          m.Disturbed false evaluated ∨ m.Undisturbed c.thread evaluated) ∧
        (m.Stays → m.Disturbed true evaluated ∨ m.Undisturbed c.thread evaluated) ∧
        (command.EndsIn r c → node.location.line ≠ location.line → m.Attended →
          (m.thread c.thread).isDebugging = false →
          m.Arrival P node c ((P.engine bound).arrive node c m)) := by
  intro resumed step
  obtain ⟨mark, hmark⟩ := Command.exists_marks hcommand hcaller
  obtain ⟨hok, hstops⟩ := hmark.resume location hthread
  refine ⟨hok, fun bound node c m hc hhas hstep => ⟨fun hover => ?_, fun hstays => ?_, ?_⟩⟩
  · have hbeneath : Context.Beneath c.thread mark c := ⟨rfl, hmark.hasAncestor_of_passesOver hover⟩
    refine (skipEffect.passes_node (.inr fun c' line hc' => ?_) bound node hbeneath hhas).state
    rw [hstep, hstops, hc'.2]
    simp
  · exact (skipEffect.passes_node (R := fun c' => c'.thread = c.thread) (.inl ⟨hstays, rfl⟩) bound
      node rfl hhas).state
  · intro hends hline hattended hdebugging
    have hnodup : r.frameIds.Nodup := hnumbers.nodup.sublist (r.rootOf_suffix.map _).sublist
    refine hattended.arrival hhas hplain hdebugging ?_
    rw [hstep, hstops, hmark.hasAncestor_of_endsIn hnodup hends]
    simp [hline]

/-! ### A step over a call -/

/-- The frames of an operation and of an operation that it calls, each with a `block`. -/
def echoFrames : Eval (Context × Context) := do
  let entry ← Eval.entry .global "entry" (.onLine 8) mainThread
  let run ← Eval.frame entry { kind := .global } "run" (.onLine 9)
  let block ← Eval.derive run "block" (.onLine 10)
  let helper ← Eval.frame block { kind := .global } "helper" (.onLine 14)
  let body ← Eval.derive helper "block" (.onLine 15)
  return (block, body)

theorem echoFrames_numbered {block body : Context} {m m' : Machine}
    (hrun : echoFrames m = (.ok (block, body), m')) : body.Numbered m' := by
  obtain ⟨entry, m₁, hentry, hrest⟩ := exists_of_bind_eq_ok hrun
  obtain ⟨run, m₂, hcall, hrest⟩ := exists_of_bind_eq_ok hrest
  obtain ⟨block, m₃, hblock, hrest⟩ := exists_of_bind_eq_ok hrest
  obtain ⟨helper, m₄, hhelper, hrest⟩ := exists_of_bind_eq_ok hrest
  obtain ⟨body, m₅, hbody, hlast⟩ := exists_of_bind_eq_ok hrest
  cases hlast
  exact ((((Context.Numbered.entry hentry).frame hcall).derive hblock).frame hhelper).derive hbody

def echoBlock : Context :=
  { inner := { id := 3, title := "block", location := .onLine 10 }
    outer := [{ id := 2, title := "run", location := .onLine 9, root := some { kind := .global } },
      { id := 1, title := "entry", location := .onLine 8, root := some { kind := .global } }]
    thread := mainThread }

def echoRoot : Scope :=
  { id := 4, title := "helper", location := .onLine 14, root := some { kind := .global } }

def echoBody : Context :=
  { echoBlock with
    inner := { id := 5, title := "block", location := .onLine 15 }
    outer := echoRoot :: echoBlock.scopes }

def echoCall : Context :=
  { echoBody with
    inner := { id := 6, title := "call", location := .onLine 20, root := some { kind := .global } }
    outer := echoBody.scopes }

/-- The main thread has stopped in the operation that is called, with some `breakpoints`. -/
def echoStanding (points : List Breakpoint) : Machine :=
  { Machine.initial echoProgram {} with
    link := some {}, breakpoints := { points }, nextContext := 6 }

def echoStepping (points : List Breakpoint) : Machine :=
  (Engine.resume .stepOver (.onLine 15) echoBody (echoStanding points)).2

def echoNode : Node :=
  .stmt (.onLine 11 .skip)

theorem echoBody_numbered (points : List Breakpoint) :
    echoBody.Numbered (echoStanding points) := by
  have hrun : echoFrames { echoStanding points with nextContext := 1 } =
      (.ok (echoBlock, echoBody), echoStanding points) := rfl
  exact echoFrames_numbered hrun

/-- With `echoStepping` the thread does not stop in the constructor of an object that a further call
makes, but at the node of the caller. -/
theorem step_passes_over_calls_echo :
    let m := echoStepping []
    let made := ((Node.expr (.onLine 21 (.new "Echo" []))).eval (echoProgram.engine 9) echoCall m).2
    let arrived := (echoProgram.engine 9).arrive echoNode echoBlock m
    echoProgram.settings.isRealTime = false ∧ echoBody.rootOf.around.isSome ∧
      echoBody.Numbered (echoStanding []) ∧ (echoStanding []).Has echoBody.thread ∧
      (m.Disturbed false made ∨ m.Undisturbed mainThread made) ∧ made.stops.size = 0 ∧
      m.Arrival echoProgram echoNode echoBlock arrived ∧
      arrived.2.stops.toList.map (·.location.line) = [11] := by
  intro m made arrived
  have hcaller : echoBody.rootOf.around.isSome := rfl
  have hhas : (echoStanding []).Has echoBody.thread := by decide +kernel
  obtain ⟨-, h⟩ := step_passes_over_calls echoProgram rfl (.inl rfl) (.onLine 15) hcaller
    (echoBody_numbered []) hhas
  have hhas' : m.Has mainThread := by decide +kernel
  have hover : Command.stepOver.PassesOver echoBody echoCall :=
    (by decide : echoBody.frameIds <:+ echoCall.frameIds.tail)
  have hends : Command.stepOver.EndsIn echoBody echoBlock :=
    (by decide : echoBlock.frameIds <:+ echoBody.frameIds)
  refine ⟨rfl, hcaller, echoBody_numbered [], hhas, ?_, by decide +kernel, ?_, by decide +kernel⟩
  · exact (h 9 _ echoCall m rfl hhas' rfl).1 hover
  · exact (h 9 echoNode echoBlock m rfl hhas' rfl).2.2 hends (by decide) ⟨{}, rfl, rfl⟩
      (by decide +kernel)

/-- A tracepoint at the node that makes an object. -/
def echoTrace : List Breakpoint :=
  [{ number := 1, target := some (11, .onLine 11)
     kind := .trace [.onLine 11 (.new "Echo" [])] }]

/-- So, after a `Command`, it is not true that the thread stops at every node where a step ends: the
tracepoint has it stopped in the constructor, and then it does not stop at the node. -/
theorem not_step_ends_at_node :
    ¬∀ (P : Program) (command : Command) (location : Location) (r : Context) (m₀ : Machine),
      P.settings.isRealTime = false → command = .stepOver ∨ command = .stepOut →
      r.rootOf.around.isSome → r.Numbered m₀ → m₀.Has r.thread →
      ∀ (bound : Nat) (node : Node) (c : Context) (m : Machine), c.thread = r.thread →
        m.Has c.thread →
        (m.thread c.thread).step =
          ((Engine.resume command location r m₀).2.thread r.thread).step →
        command.EndsIn r c → node.location.line ≠ location.line → m.Attended →
        (m.thread c.thread).isDebugging = false →
        let out := (P.engine bound).arrive node c m
        out.1 = .error .exhausted ∨ m.IsEnding c.thread ∨
          ∃ stop ∈ m.news out.2, stop.location = node.location := by
  intro h
  have hhas : (echoStanding echoTrace).Has echoBody.thread := by decide +kernel
  have hhas' : (echoStepping echoTrace).Has mainThread := by decide +kernel
  have hends : Command.stepOver.EndsIn echoBody echoBlock :=
    (by decide : echoBlock.frameIds <:+ echoBody.frameIds)
  have hok : ((echoProgram.engine 9).arrive echoNode echoBlock
      (echoStepping echoTrace)).1.toOption = some () := by decide +kernel
  have hlines : (((echoStepping echoTrace).news ((echoProgram.engine 9).arrive echoNode echoBlock
      (echoStepping echoTrace)).2).map (·.location.line)) = [3] := by decide +kernel
  rcases h echoProgram .stepOver (.onLine 15) echoBody (echoStanding echoTrace) rfl (.inl rfl) rfl
    (echoBody_numbered _) hhas 9 echoNode echoBlock (echoStepping echoTrace) rfl hhas' rfl hends
    (by decide) ⟨{}, rfl, rfl⟩ (by decide +kernel) with hcut | hending | ⟨stop, hmem, hstop⟩
  · rw [hcut] at hok
    cases hok
  · revert hending
    unfold Machine.IsEnding
    decide +kernel
  · have hline : stop.location.line ∈ [3] := hlines ▸ List.mem_map_of_mem hmem
    rw [hstop] at hline
    revert hline
    decide

end Animator

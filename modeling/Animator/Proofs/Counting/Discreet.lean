import Animator.Proofs.Inspection
import Animator.Proofs.Regime
import Animator.Proofs.Tandem.Pause

/-!
# Debuggers that only stop

A debugger that only stops threads and lets them go on evaluates nothing and ends no execution
(`Machine.Discreet`). Whatever it is shown, the thread goes on (`Machine.Shown`), and a breakpoint
that is met only counts that and may stop the thread (`Machine.Meets`).
-/

namespace Animator

/-- The debugger evaluates nothing and never ends the execution. -/
structure Link.Passive (l : Link) : Prop where
  watch : l.watch = []
  script : ∀ command ∈ l.script, command ≠ .terminate
  fallback : l.fallback ≠ .terminate

/-- The debugger of the machine only stops threads and lets them go on. -/
structure Machine.Discreet (m : Machine) : Prop where
  breakpoints : ∀ b ∈ m.breakpoints.entries, b.kind.OnlyStops
  link : ∀ l, m.link = some l → l.Passive

/-- A debugger that has answered is as `Passive` as before, and its `answer` ends nothing. -/
theorem Link.Passive.answer {l : Link} (hl : l.Passive) :
    l.answer.1 ≠ .terminate ∧ l.answer.2.Passive := by
  obtain ⟨hcommand, seen, gone, script, heq, hscript, -⟩ :=
    l.answer_cases hl.script hl.fallback nofun
  rw [heq]
  exact ⟨hcommand, { hl with script := hscript }⟩

/-! ### What the debugger does -/

namespace Machine

/-- A thread stops: the debugger is shown that if it attends, and the thread goes on. -/
inductive Shown (reason : StopReason) (m : Machine) : Machine → Prop where
  | unattended (h : ¬m.Attended) : Shown reason m m
  | attended {link : Link} (stop : Stop) (hlink : m.link = some link)
      (hattends : link.isAttending = true) (hreason : stop.reason = reason)
      (hhits : stop.hits = m.hits) : Shown reason m (m.reported link stop)
  | goOn {m' : Machine} (h : Shown reason m m') (id : ThreadId) (step : StepTarget) :
    Shown reason m (m'.modifyThread id (·.stepTo step))

/-- A thread meets a `breakpoint` that only stops threads. -/
inductive Meets (b : Breakpoint) (m : Machine) : Machine → Prop where
  | stop {m' : Machine} (hstops : b.kind.stopsAfter (b.hits + 1) = true)
      (hshown : Shown (.breakpoint b.number) { m with breakpoints := m.breakpoints.hit b.number }
        m') :
    Meets b m m'
  | pass (hpasses : b.kind.stopsAfter (b.hits + 1) = false) :
    Meets b m { m with breakpoints := m.breakpoints.hit b.number }

namespace Discreet

variable {m m' : Machine} (hm : m.Discreet)

include hm

theorem hit (number : Nat) : Discreet { m with breakpoints := m.breakpoints.hit number } := by
  refine ⟨fun b hb => ?_, hm.link⟩
  obtain ⟨a, ha, hkind⟩ := BreakpointTable.kind_of_mem_hit hb
  exact hkind ▸ hm.breakpoints a ha

theorem shown {reason : StopReason} (h : m.Shown reason m') : m'.Discreet := by
  induction h with
  | unattended => exact hm
  | attended stop hlink =>
    refine ⟨hm.breakpoints, fun l hl => ?_⟩
    exact Option.some.inj hl ▸ (hm.link _ hlink).answer.2
  | goOn _ id step ih => exact ⟨ih.breakpoints, ih.link⟩

end Discreet

end Machine

namespace Engine

variable (E : Engine) {m : Machine} (hm : m.Discreet) (location : Location) (c : Context)

include hm

theorem consult_discreet (reason : StopReason) {link : Link} (hlink : m.link = some link) :
    ∃ command m', E.consult link reason location c m = (.ok command, m') ∧
      command ≠ .terminate ∧ m.Shown reason m' := by
  have hl := hm.link link hlink
  unfold consult
  split
  -- There is nothing to evaluate, so only the answer is taken.
  · next hattends =>
    rw [hl.watch]
    exact ⟨_, _, rfl, hl.answer.1, .attended _ hlink hattends rfl rfl⟩
  · next hleft =>
    refine ⟨.continue, m, rfl, nofun, .unattended ?_⟩
    rintro ⟨link', hlink', hattends⟩
    obtain rfl := Option.some.inj (hlink.symm.trans hlink')
    exact hleft hattends

theorem suspend_discreet (reason : StopReason) :
    ∃ m', E.suspend reason location c m = (.ok (), m') ∧ m.Shown reason m' := by
  rw [suspend_apply]
  cases hlink : m.link with
  | none =>
    refine ⟨m, rfl, .unattended ?_⟩
    rintro ⟨link, hlink', -⟩
    cases hlink.symm.trans hlink'
  | some link =>
    obtain ⟨command, m₁, hrun, hcommand, hshown⟩ := E.consult_discreet hm location c reason hlink
    dsimp only
    rw [bind_of_ok hrun]
    cases command with
    | «continue» | stepIn | stepOver => exact ⟨_, rfl, hshown.goOn _ _⟩
    | stepOut =>
      unfold resume
      dsimp only
      cases c.rootOf.around <;> exact ⟨_, rfl, hshown.goOn _ _⟩
    | terminate => exact absurd rfl hcommand

theorem reportFatal_discreet (message : String) :
    ∃ m', E.reportFatal message location c m = (.ok (), m') ∧
      (m' = m ∨ m.Shown (.fatal message) m') := by
  rw [reportFatal_apply]
  split
  · exact ⟨m, rfl, .inl rfl⟩
  · cases hlink : m.link with
    | none => exact ⟨m, rfl, .inl rfl⟩
    | some link =>
      obtain ⟨command, m₁, hrun, -, hshown⟩ := E.consult_discreet hm location c _ hlink
      exact ⟨m₁, bind_of_ok hrun, .inr hshown⟩

/-- A `Breakpoint`, after it has been counted that it is met. -/
theorem takeEffect_discreet {b : Breakpoint} (hb : b.kind.OnlyStops) :
    ∃ stopped m', E.takeEffect b location c { m with breakpoints := m.breakpoints.hit b.number } =
      (.ok stopped, m') ∧ m.Meets b m' := by
  obtain ⟨m₁, hrun, hshown⟩ :=
    E.suspend_discreet (hm.hit b.number) location c (.breakpoint b.number)
  rw [E.takeEffect_of_onlyStops hb]
  cases hstops : b.kind.stopsAfter (b.hits + 1) with
  | true => exact ⟨true, m₁, bind_of_ok hrun, .stop hstops hshown⟩
  | false => exact ⟨false, _, rfl, .pass hstops⟩

theorem meetBreakpoint_discreet (node : NodeId) :
    ∃ stopped m', E.meetBreakpoint node location c m = (.ok stopped, m') ∧
      (m.breakpoints.at? node = none ∧ m' = m ∨
        ∃ b, m.breakpoints.at? node = some b ∧ m.Meets b m') := by
  cases hfound : m.breakpoints.at? node with
  | none =>
    exact ⟨false, m, E.meetBreakpoint_of_none location c hfound, .inl ⟨rfl, rfl⟩⟩
  | some b =>
    have hb := hm.breakpoints b (BreakpointTable.mem_entries_of_at? hfound)
    obtain ⟨stopped, m', hrun, hmeets⟩ := E.takeEffect_discreet hm location c hb
    exact ⟨stopped, m', (E.meetBreakpoint_of_some location c hfound).trans hrun,
      .inr ⟨b, rfl, hmeets⟩⟩

end Engine

end Animator

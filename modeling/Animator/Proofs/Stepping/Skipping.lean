import Animator.Proofs.Stepping.Advance

/-!
# Undisturbed steps

A thread that steps keeps its step target until it stops. It may stop for a reason of its own, where
the step ends, or for another one: a breakpoint, a request to pause, a catchpoint. An evaluation is
disturbed if it stops for a reason that counts, and what is shown of fatal errors never counts.
-/

namespace Animator

/-- Whether a stop disturbs; steps that end may count or not. -/
def StopReason.counts (steps : Bool) : StopReason → Bool
  | .fatal _ => false
  | .step => steps
  | _ => true

namespace Machine

/-- If there is a debugger then it never leaves. -/
def Stays (m : Machine) : Prop :=
  ∀ link, m.link = some link → link.Stays

def news (m m' : Machine) : List Stop :=
  m'.stops.toList.drop m.stops.size

variable {m₀ m m' : Machine} {id : ThreadId} {steps : Bool}

theorem news_self : m.news m = [] := by
  rw [news, List.drop_eq_nil_iff, Array.length_toList]

theorem news_congr (h : m'.stops = m.stops) : m₀.news m' = m₀.news m := by
  rw [news, news, h]

theorem Advances.news_append (h : m₀.Advances m) (h' : m.Advances m') :
    m₀.news m' = m₀.news m ++ m.news m' := by
  obtain ⟨l, hl⟩ := h.stops
  obtain ⟨l', hl'⟩ := h'.stops
  have hdrop : ∀ (a : Machine) (l : List Stop), (a.stops.toList ++ l).drop a.stops.size = l := by
    intro a l
    rw [← Array.length_toList, List.drop_left]
  rw [news, news, news, ← hl', hdrop, ← hl, List.append_assoc, hdrop, hdrop]

theorem news_reported {link : Link} {stop : Stop} (h : m₀.Advances m) :
    m₀.news (m.reported link stop) = m₀.news m ++ [stop] := by
  have hnew : m.news (m.reported link stop) = [stop] := by
    unfold news reported
    rw [Array.toList_push, ← Array.length_toList, List.drop_left]
  rw [h.news_append (.reported link stop), hnew]

/-- A stop that `counts` was shown. Or the debugger may leave, so that not every stop is shown; then
perhaps one was missed, if a breakpoint was met or a request to `pause` was pending. -/
def Disturbed (steps : Bool) (m₀ m : Machine) : Prop :=
  (∃ stop ∈ m₀.news m, stop.reason.counts steps = true) ∨
    (¬m₀.Stays ∧ (m₀.breakpoints.met < m.breakpoints.met ∨ m₀.scheduler.interrupt = .pause))

theorem Disturbed.later (hd : Disturbed steps m₀ m) (h : m₀.Advances m) (h' : m.Advances m') :
    Disturbed steps m₀ m' := by
  rcases hd with ⟨stop, hstop, hcounts⟩ | ⟨hstays, hmet | hpause⟩
  · refine .inl ⟨stop, ?_, hcounts⟩
    rw [h.news_append h']
    exact List.mem_append_left _ hstop
  · exact .inr ⟨hstays, .inl (Nat.lt_of_lt_of_le hmet h'.met)⟩
  · exact .inr ⟨hstays, .inr hpause⟩

/-- Only `fatal` errors were shown, and the thread steps as it did. -/
structure Undisturbed (id : ThreadId) (m₀ m : Machine) : Prop where
  fatal : ∀ stop ∈ m₀.news m, stop.reason.counts true = false
  step : (m.thread id).step = (m₀.thread id).step
  stays : m₀.Stays → m.Stays
  interrupt : m.scheduler.interrupt = .pause → m₀.scheduler.interrupt = .pause

namespace Undisturbed

theorem refl : m.Undisturbed id m :=
  ⟨by simp [news_self], rfl, fun h => h, fun h => h⟩

theorem frame (h : m₀.Undisturbed id m) (hf : m.Frame id m') : m₀.Undisturbed id m' where
  fatal := news_congr hf.stops ▸ h.fatal
  step := hf.step.trans h.step
  stays hstays link hlink := h.stays hstays link (hf.link ▸ hlink)
  interrupt hpause := h.interrupt (hf.interrupt ▸ hpause)

theorem aside (h : m₀.Undisturbed id m) (hstops : m'.stops = m.stops) (hlink : m'.link = m.link)
    (hscheduler : m'.scheduler = m.scheduler) : m₀.Undisturbed id m' where
  fatal := news_congr hstops ▸ h.fatal
  step := by rw [thread, hscheduler]; exact h.step
  stays hstays link hl := h.stays hstays link (hlink ▸ hl)
  interrupt hpause := h.interrupt (hscheduler ▸ hpause)

end Undisturbed

/-- Since a machine that was before, a thread was `Disturbed` or not. -/
structure Passes (id : ThreadId) (steps : Bool) (m₀ m : Machine) : Prop where
  has : m.Has id
  advances : m₀.Advances m
  state : Disturbed steps m₀ m ∨ m₀.Undisturbed id m

namespace Passes

theorem refl (hm : m.Has id) : Passes id steps m m :=
  ⟨hm, .refl, .inr .refl⟩

theorem disturbed (hm : m.Has id) (hadvances : m₀.Advances m) (hd : Disturbed steps m₀ m)
    (h : m.Advances m') : Passes id steps m₀ m' :=
  ⟨h.known hm, hadvances.trans h, .inl (hd.later hadvances h)⟩

theorem frame (h : Passes id steps m₀ m) (hf : m.Frame id m') (hadvances : m.Advances m') :
    Passes id steps m₀ m' :=
  ⟨hf.has, h.advances.trans hadvances, h.state.imp (·.later h.advances hadvances) (·.frame hf)⟩

theorem aside (h : Passes id steps m₀ m) (hadvances : m.Advances m') (hstops : m'.stops = m.stops)
    (hlink : m'.link = m.link) (hscheduler : m'.scheduler = m.scheduler) :
    Passes id steps m₀ m' :=
  ⟨hadvances.known h.has, h.advances.trans hadvances,
    h.state.imp (·.later h.advances hadvances) (·.aside hstops hlink hscheduler)⟩

theorem reported (h : Passes id steps m₀ m) {link : Link} {stop : Stop}
    (hlink : m₀.Stays → link.Stays) (hstop : stop.reason.counts true = false) :
    Passes id steps m₀ (m.reported link stop) := by
  refine ⟨h.has, h.advances.trans (.reported link stop), ?_⟩
  refine h.state.imp (·.later h.advances (.reported link stop)) fun hu => ?_
  refine ⟨?_, hu.step, fun hstays answered ha => ?_, hu.interrupt⟩
  · rw [news_reported h.advances]
    exact List.forall_mem_append.2 ⟨hu.fatal, List.forall_mem_singleton.2 hstop⟩
  · rw [← Option.some.inj ha]
    exact (hlink hstays).answer

end Passes

end Machine

/-- Every evaluation is disturbed or not, seen from a machine that was before. -/
def skipEffect (P : Program) (id : ThreadId) (steps : Bool) (m₀ : Machine) :
    Effect P .all (· = id) where
  Inv := Machine.Passes id steps m₀
  Rel _ _ _ := True
  delegates := P.delegates_from_all
  refl _ := trivial
  ends _ _ := trivial
  trans _ _ _ := trivial
  recover _ _ := trivial
  step hi hs := ⟨hi.frame (hs.frame hi.has).1 hs.advances, trivial⟩
  enter g _ _ _ hi := hi.frame (g.frame_enter hi.has) (.enter g _)
  leave g _ _ _ _ _ _ hi := ⟨hi.frame (g.frame_leave hi.has) (.leave g _), trivial⟩

instance {P : Program} {id : ThreadId} {steps : Bool} {m₀ : Machine} :
    (skipEffect P id steps m₀).Charges where
  charge duration _ hi _ :=
    ⟨hi.frame (Machine.Frame.charge _ duration hi.has).1 (.modifyRecord fun _ => rfl), trivial⟩

namespace skipEffect

variable {P : Program} {id : ThreadId} {steps : Bool} {m₀ m : Machine} {n : Nat} {α : Type}
  {Q : α → α → Prop} {x : Eval α} {R : Context → Prop} [Region (· = id) R] {c : Context}
  {location : Location} {reason : StopReason}

def inspects (P : Program) (id : ThreadId) (steps : Bool) (m₀ : Machine) :
    (skipEffect P id steps m₀).Inspects where
  Watch _ := True
  swallow _ _ _ _ _ _ := trivial

theorem checks : (skipEffect P id steps m₀).Checks (inspects P id steps m₀) where
  watched _ _ _ _ _ := trivial
  counted _ hi := ⟨hi.aside (.counted _) rfl rfl rfl, trivial⟩
  step hi hs := by
    refine ⟨?_, trivial⟩
    have hadvances := hs.advances
    cases hs with
    | returned | breakpoint => exact hi.aside hadvances rfl rfl rfl
    | request =>
      refine ⟨hi.has, hi.advances.trans hadvances, ?_⟩
      refine hi.state.imp (·.later hi.advances hadvances) fun h => ?_
      exact ⟨h.fatal, h.step, h.stays, nofun⟩
    | yieldPoint => exact hi.frame (.modifyRecord hi.has (fun _ => rfl) fun _ => rfl) hadvances
  unwind _ hi _ _ := ⟨hi.aside (.event _) rfl rfl rfl, trivial⟩

omit [Region (· = id) R] in
theorem post_disturbed (hi : (skipEffect P id steps m₀).Inv m) (hd : Machine.Disturbed steps m₀ m)
    (hx : (advanceDrift P).effect.Holds Q x x) :
      (skipEffect P id steps m₀).Post Q m (x m) (x m) := by
  have hpost := hx m m.from_all trivial
  have hpasses : Machine.Passes id steps m₀ (x m).2 :=
    .disturbed hi.has hi.advances hd hpost.rel
  exact ⟨rfl, Machine.from_all _, hpasses, trivial, hpost.outcomes⟩

section Reacts

variable (S : (skipEffect P id steps m₀).Sound (P.engine n) R)

include S

theorem suspend (hcounts : reason.counts steps = true) (hstays : m₀.Stays) (hr : R c) :
    (skipEffect P id steps m₀).Does Eq ((P.engine n).suspend reason location c) := by
  intro m hm hi
  rcases hi.state with hd | hu
  · exact post_disturbed hi hd (advanceDrift.suspend P n reason location c)
  · refine ⟨rfl, Machine.from_all _, ?_, trivial, .refl_all _⟩
    rw [Engine.suspend_apply]
    cases hlink : m.link with
    | none => exact hi
    | some link =>
      have hattending := (hu.stays hstays link hlink).isAttending
      obtain ⟨m₁, hi₁, ⟨-, hconsult⟩ | ⟨-, stop, hstop, hconsult⟩⟩ :=
        (inspects P id steps m₀).consult_apply S reason location hattending
          (fun _ _ => ⟨trivial, trivial⟩) c.from_all hr hm hi
      · dsimp only
        rw [bind_of_error hconsult]
        exact hi₁
      · dsimp only
        rw [bind_of_ok hconsult]
        -- The stop that has just been shown is the one that counts.
        have hd : Machine.Disturbed steps m₀ (m₁.reported link stop) := by
          refine .inl ⟨stop, ?_, hstop.reason ▸ hcounts⟩
          rw [Machine.news_reported hi₁.advances]
          exact List.mem_append_right _ (List.mem_singleton_self _)
        have hhas : (m₁.reported link stop).Has id := hi₁.has
        exact .disturbed hhas (hi₁.advances.trans (.reported link stop)) hd
          (advanceDrift.advances_resume _ _ _ _)

omit S [Region (· = id) R] in
/-- A `Breakpoint` is met: either the debugger stays, or this is a disturbance already. -/
theorem stays_or_disturbed_of_hit {b : Breakpoint} (hi : (skipEffect P id steps m₀).Inv m)
    (hb : b ∈ m.breakpoints.entries) :
    m₀.Stays ∨
      Machine.Disturbed steps m₀ { m with breakpoints := m.breakpoints.hit b.number } := by
  by_cases hstays : m₀.Stays
  · exact .inl hstays
  · refine .inr (.inr ⟨hstays, .inl ?_⟩)
    exact Nat.lt_of_le_of_lt hi.advances.met (BreakpointTable.met_hit hb)

omit S [Region (· = id) R] in
theorem post_hit {β : Type} {Q : β → β → Prop} {x : Eval β} {b : Breakpoint}
    (hi : (skipEffect P id steps m₀).Inv m) (hb : b ∈ m.breakpoints.entries)
    (hadvance : (advanceDrift P).effect.Holds Q x x)
    (hx : m₀.Stays → (skipEffect P id steps m₀).Holds Q x x) :
    (skipEffect P id steps m₀).Post Q m
      (x { m with breakpoints := m.breakpoints.hit b.number })
      (x { m with breakpoints := m.breakpoints.hit b.number }) := by
  have hhit := (checks.step hi (.breakpoint b.number)).1
  rcases stays_or_disturbed_of_hit hi hb with hstays | hd
  · exact .after hi trivial (hx hstays _ (Machine.from_all _) hhit)
  · exact .after hi trivial (post_disturbed hhit hd hadvance)

theorem offer {v : Value} {bs : List Breakpoint} (hr : R c)
    (hi : (skipEffect P id steps m₀).Inv m) (hbs : ∀ b ∈ bs, b ∈ m.breakpoints.entries) :
    (skipEffect P id steps m₀).Post Eq m ((P.engine n).offer v location c bs m)
      ((P.engine n).offer v location c bs m) := by
  induction bs with
  | nil => exact .pure rfl m.from_all hi
  | cons b rest ih =>
    obtain ⟨hb, hrest⟩ := List.forall_mem_cons.1 hbs
    refine .reads ?_
    split
    · exact post_hit (x := (P.engine n).suspend (.catch b.number v) location c) hi hb
        (advanceDrift.suspend P n _ location c) fun hstays => suspend S rfl hstays hr
    · exact ih hrest

theorem reportFatal {message : String} (hr : R c) :
    (skipEffect P id steps m₀).Does Eq ((P.engine n).reportFatal message location c) := by
  intro m hm hi
  rcases hi.state with hd | hu
  · exact post_disturbed hi hd ((advanceDrift.reacts P n).reportFatal c.from_all trivial)
  · rw [Engine.reportFatal_apply]
    split
    · exact .pure rfl hm hi
    · cases hlink : m.link with
      | none => exact .pure rfl hm hi
      | some link =>
        refine ⟨rfl, Machine.from_all _, ?_, trivial, .refl_all _⟩
        dsimp only
        cases hattending : link.isAttending with
        | false =>
          have hconsult : (P.engine n).consult link (.fatal message) location c m =
              (.ok .continue, m) := congrFun (if_neg (Bool.not_eq_true _ ▸ hattending)) m
          rw [bind_of_ok hconsult]
          exact hi
        | true =>
          obtain ⟨m₁, hi₁, ⟨-, hconsult⟩ | ⟨-, stop, hstop, hconsult⟩⟩ :=
            (inspects P id steps m₀).consult_apply S (.fatal message) location hattending
              (fun _ _ => ⟨trivial, trivial⟩) c.from_all hr hm hi
          · rw [bind_of_error hconsult]
            exact hi₁
          · rw [bind_of_ok hconsult]
            exact hi₁.reported (fun hstays => hu.stays hstays link hlink) (hstop.reason ▸ rfl)

/-- Stops in the frames that are passed over have other reasons than the step. -/
theorem reacts (hstep : (m₀.Stays ∧ steps = true) ∨
      ∀ c line, R c → (m₀.thread id).step.stopsAt line c = false) :
    (skipEffect P id steps m₀).Reacts (P.engine n) R := by
  have hcatches : (skipEffect P id steps m₀).Catches (P.engine n) R := {
    offer := fun _ hi hbs _ hr => offer S hr hi hbs
    reportFatal := fun _ hr => reportFatal S hr }
  refine { hcatches with step := ?_, pause := ?_, breakpoint := ?_ }
  · intro m location c i hm hi hr _ hri hstops
    rcases hi.state with hd | hu
    · exact post_disturbed hi hd (advanceDrift.suspend P n _ location i)
    · rcases hstep with ⟨hstays, rfl⟩ | hnever
      · exact suspend S rfl hstays hri m hm hi
      · -- The step target is what it was, so no context of the region is a place to stop.
        have hthread : c.thread = id := Region.thread (T := (· = id)) hr
        rw [hthread, hu.step, hnever c _ hr] at hstops
        cases hstops
  · intro m location c hm hi hpause _ hr
    have hrequest : (skipEffect P id steps m₀).Inv m.taken := (checks.step hi .request).1
    by_cases hstays : m₀.Stays
    · exact .after hi trivial (suspend S rfl hstays hr _ (Machine.from_all _) hrequest)
    · have hd : Machine.Disturbed steps m₀ m.taken := by
        rcases hi.state with hd | hu
        · exact hd.later hi.advances .taken
        · exact .inr ⟨hstays, .inr (hu.interrupt hpause)⟩
      exact .after hi trivial (post_disturbed hrequest hd (advanceDrift.suspend P n _ location c))
  · intro m b location c hm hi hb hc hr
    have hmet := post_hit (x := (P.engine n).takeEffect b location c) hi hb
      (advanceDrift.takeEffect P n b location c) fun hstays =>
        ((inspects P id steps m₀).reaction S hc hr fun _ _ _ =>
          Effect.Obeys.fail hcatches hc hr).takeEffect (fun _ _ => ⟨trivial, trivial⟩)
            (suspend S rfl hstays hr)
    exact hmet

end Reacts

theorem sound (hstep : (m₀.Stays ∧ steps = true) ∨
      ∀ c line, R c → (m₀.thread id).step.stopsAt line c = false) (n : Nat) :
    (skipEffect P id steps m₀).Sound (P.engine n) R :=
  (skipEffect P id steps m₀).run_engine Origin.closed_all
    (fun _ S => checks.leaves_of_reacts (reacts S hstep) S) n

theorem passes_node (hstep : (m₀.Stays ∧ steps = true) ∨
      ∀ c line, R c → (m₀.thread id).step.stopsAt line c = false) (n : Nat) (node : Node) (hr : R c)
    (hm : m₀.Has id) : Machine.Passes id steps m₀ (node.eval (P.engine n) c m₀).2 := by
  cases node with
  | stmt s => exact ((sound hstep n).stmt trivial c.from_all hr m₀ m₀.from_all (.refl hm)).inv
  | expr e => exact ((sound hstep n).expr trivial c.from_all hr m₀ m₀.from_all (.refl hm)).inv

end skipEffect

end Animator

import Animator.Proofs.Effect.Debug
import Animator.Proofs.Effect.Frame
import Animator.Proofs.Logic.Entry

/-!
# Unwinding

An execution that is cancelled and a thread that is stopped end where they are: no handler takes
them, no cleanup runs, and no time passes on the way out. This holds as long as the debugger
evaluates nothing, since an evaluation for the debugger takes every early end for a result.
-/

namespace Animator

/-- The debugger evaluates nothing. -/
structure Machine.Unwatched (m : Machine) : Prop where
  breakpoints : ∀ b ∈ m.breakpoints.entries, b.kind.exprs = []
  link : ∀ l, m.link = some l → l.watch = []

theorem Machine.Unwatched.ofUnseen {m m' : Machine} (h : m.Unwatched) (hu : m.Unseen m') :
    m'.Unwatched :=
  ⟨hu.breakpoints ▸ h.breakpoints, hu.link ▸ h.link⟩

/-- The values, counters, lines and clocks of a machine are those of a `Snapshot`. -/
structure Machine.Shows (m : Machine) (state : Snapshot) : Prop where
  heap : m.heap = state.heap
  hits : m.hits = state.hits
  log : m.log = state.log
  time : ∀ id, m.scheduler.time id = state.scheduler.time id

/-- Nothing is cancelled and no thread is stopped. -/
def Uncancelled (events : List Event) : Prop :=
  ∀ halt state, .unwound halt state ∉ events

/-- How an evaluation with some `events` ended: the thread was not `unwound`, or it was, and that
was the last that happened. -/
inductive Machine.Ended (m : Machine) : Option Halt → List Event → Prop where
  | normally {r : Option Halt} {events : List Event} (hevents : Uncancelled events)
      (hr : ∀ halt, r = some halt → ¬halt.IsForced) : Ended m r events
  | unwound {halt : Halt} {state : Snapshot} {before : List Event} (hbefore : Uncancelled before)
      (hh : halt.IsForced) (hm : m.Shows state) :
      Ended m (some halt) (.unwound halt state :: before)

section Ended

variable {m m₁ m₂ : Machine} {r : Option Halt} {halt : Halt} {events later : List Event}

theorem uncancelled_nil : Uncancelled [] :=
  fun _ _ => List.not_mem_nil

theorem Uncancelled.append (hlater : Uncancelled later) (hevents : Uncancelled events) :
    Uncancelled (later ++ events) := by
  intro halt state hmem
  rcases List.mem_append.1 hmem with hmem | hmem
  · exact hlater halt state hmem
  · exact hevents halt state hmem

theorem uncancelled_singleton {event : Event} (h : ∀ halt state, event ≠ .unwound halt state) :
    Uncancelled [event] :=
  fun halt state hmem => h halt state (List.mem_singleton.1 hmem).symm

/-- A machine that shows a `Snapshot` still does after a `Guard` is switched off. -/
theorem Machine.Shows.leave {state : Snapshot} (h : m.Shows state) (g : Guard) (id : ThreadId) :
    (g.leave id m).Shows state := by
  have htime : ∀ id', (g.leave id m).scheduler.time id' = state.scheduler.time id' :=
    fun id' => g.time_leave.trans (h.time id')
  cases g <;> exact ⟨h.heap, h.hits, h.log, htime⟩

namespace Machine.Ended

theorem onward (hevents : Uncancelled events) : m.Ended none events :=
  .normally hevents fun halt h => absurd h (Option.some_ne_none halt).symm

theorem nothing : m.Ended none [] :=
  .onward uncancelled_nil

/-- A part that comes to its end is followed by another one. -/
theorem trans (h : m₁.Ended none events) (h' : m₂.Ended r later) :
    m₂.Ended r (later ++ events) := by
  obtain ⟨hevents, -⟩ := h
  cases h' with
  | normally hlater hr => exact .normally (hlater.append hevents) hr
  | unwound hbefore hh hm => exact .unwound (hbefore.append hevents) hh hm

theorem recover (h : m.Ended (some halt) events) (hh : halt.isUnwinding = false) :
    m.Ended none events := by
  cases h with
  | normally hevents _ => exact .onward hevents
  | unwound _ hforced _ => exact absurd hh hforced.isUnwinding_ne_false

theorem leave (h : m.Ended r events) (g : Guard) (id : ThreadId) :
    (g.leave id m).Ended r events := by
  cases h with
  | normally hevents hr => exact .normally hevents hr
  | unwound hbefore hh hm => exact .unwound hbefore hh (hm.leave g id)

theorem ofUnwound (hh : halt.IsForced) :
    (m.unwound halt).Ended (some halt) [.unwound halt m.snapshot] :=
  .unwound uncancelled_nil hh ⟨rfl, rfl, rfl, fun _ => rfl⟩

/-- An unwinding is the last `Event`, and the end of the evaluation. -/
theorem last {after before : List Event} {state : Snapshot}
    (h : m.Ended r (after ++ .unwound halt state :: before)) :
    r = some halt ∧ after = [] ∧ m.Shows state := by
  generalize hevents : after ++ .unwound halt state :: before = events at h
  cases h with
  | normally huncancelled _ =>
    exact absurd (hevents ▸ List.mem_append_right _ List.mem_cons_self) (huncancelled halt state)
  | unwound hbefore _ hm =>
    -- Nothing was unwound before, so the unwinding that is asked for is the last one.
    cases after with
    | nil =>
      cases hevents
      exact ⟨rfl, rfl, hm⟩
    | cons first rest =>
      have hrest := (List.cons.inj hevents).2
      exact absurd (hrest ▸ List.mem_append_right _ List.mem_cons_self) (hbefore halt state)

theorem forced (h : m.Ended (some halt) events) (hh : halt.IsForced) :
    ∃ state before, events = .unwound halt state :: before := by
  cases h with
  | normally _ hr => exact absurd hh (hr halt rfl)
  | unwound => exact ⟨_, _, rfl⟩

end Machine.Ended

end Ended

/-- Nothing comes between an unwinding and the end of an evaluation, if the debugger evaluates
nothing. -/
def unwindingEffect (P : Program) : Effect P .all fun _ => True where
  Inv := Machine.Unwatched
  Rel m r m' := ∃ events, m'.history = events ++ m.history ∧ m'.Ended r events
  delegates := P.delegates_from_all
  refl _ := ⟨[], rfl, .nothing⟩
  ends _ hh := by
    refine ⟨[], rfl, .normally uncancelled_nil fun halt h hforced => ?_⟩
    obtain rfl := Option.some.inj h
    rcases hh with hh | rfl
    · exact hforced.isUnwinding_ne_false hh
    · exact hforced
  trans := by
    rintro m m₁ m₂ r - ⟨events, hhistory, h⟩ ⟨later, hhistory', h'⟩
    exact ⟨later ++ events, by rw [hhistory', hhistory, List.append_assoc], h.trans h'⟩
  recover := by
    rintro m m' halt ⟨events, hhistory, h⟩ hh
    exact ⟨events, hhistory, h.recover hh⟩
  step := by
    rintro m m' hi hs
    exact ⟨hi.ofUnseen hs.unseen, [], hs.unseen.history, .nothing⟩
  enter g id _ _ hi := hi.ofUnseen g.unseen_enter
  leave := by
    rintro m m' r g id - - - - ⟨events, hhistory, h⟩ hi'
    refine ⟨hi'.ofUnseen g.unseen_leave, events, ?_, h.leave g id⟩
    rw [g.unseen_leave.history, hhistory, g.unseen_enter.history]

instance {P : Program} : (unwindingEffect P).Charges where
  charge _ _ hi _ := ⟨⟨hi.breakpoints, hi.link⟩, [], rfl, .nothing⟩

namespace unwindingEffect

variable {P : Program} {E : Engine}

def inspects (P : Program) : (unwindingEffect P).Inspects where
  Watch _ := False
  swallow h := h.elim

/-- Stops are shown (`Reports`) to the debugger, and it may end the execution. -/
theorem reports : (unwindingEffect P).Reports (inspects P) where
  watched hi hlink e he := by
    rw [hi.link _ hlink] at he
    cases he
  report := by
    rintro m link stop hi hwatch
    refine ⟨⟨hi.breakpoints, fun l hl => ?_⟩, [], rfl, .nothing⟩
    obtain rfl := Option.some.inj hl
    -- A debugger that has answered still watches nothing.
    rw [Link.watch_answer]
    exact List.eq_nil_iff_forall_not_mem.2 hwatch
  stepTo _ _ hi := ⟨⟨hi.breakpoints, hi.link⟩, [], rfl, .nothing⟩
  terminate location hi := ⟨⟨hi.breakpoints, hi.link⟩, [_], rfl, .ofUnwound trivial⟩

theorem checks : (unwindingEffect P).Checks (inspects P) where
  watched hi b hb e he := by
    rw [hi.breakpoints b hb] at he
    cases he
  counted _ hi :=
    ⟨⟨hi.breakpoints, hi.link⟩, [_], rfl, .onward (uncancelled_singleton nofun)⟩
  step := by
    rintro m m' hi hs
    cases hs with
    | returned =>
      exact ⟨⟨hi.breakpoints, hi.link⟩, [_], rfl, .onward (uncancelled_singleton nofun)⟩
    | request | yieldPoint => exact ⟨⟨hi.breakpoints, hi.link⟩, [], rfl, .nothing⟩
    | breakpoint number =>
      refine ⟨⟨fun b hb => ?_, hi.link⟩, [], rfl, .nothing⟩
      obtain ⟨a, ha, hkind⟩ := BreakpointTable.kind_of_mem_hit hb
      exact hkind ▸ hi.breakpoints a ha
  unwind _ hi _ hh := by
    refine ⟨⟨hi.breakpoints, hi.link⟩, [_], rfl, .ofUnwound ?_⟩
    rcases hh with rfl | rfl <;> trivial

theorem sound (P : Program) (bound : Nat) : (unwindingEffect P).Sound (P.engine bound) :=
  (unwindingEffect P).run Origin.closed_all (fun _ S => checks.leaves S (reports.stops S)) bound

end unwindingEffect

/-- An execution that is cancelled and a thread that is stopped are `unwound` to the top: the
evaluation ends with that very end, nothing is evaluated any more, and values, counters, log and
clocks stay as they were. Nothing else ends an evaluation in that way. -/
theorem unwinding_reaches_top (P : Program) (bound : Nat) (node : Node) (c : Context) (m : Machine)
    (hunwatched : m.Unwatched) :
    let out := node.eval (P.engine bound) c m
    ∃ events, out.2.history = events ++ m.history ∧
      (∀ after halt state before, events = after ++ .unwound halt state :: before →
        out.1 = .error halt ∧ after = [] ∧ out.2.Shows state) ∧
      ∀ halt, out.1 = .error halt → halt.IsForced →
        ∃ state before, events = .unwound halt state :: before := by
  intro out
  have S := unwindingEffect.sound P bound
  have hpost : (unwindingEffect P).Post (Same (·.From .all)) m out out := by
    cases node with
    | stmt s => exact S.stmt trivial c.from_all trivial m m.from_all hunwatched
    | expr e => exact S.expr trivial c.from_all trivial m m.from_all hunwatched
  obtain ⟨events, hhistory, hended⟩ := hpost.rel
  refine ⟨events, hhistory, ?_, ?_⟩
  · rintro after halt state before rfl
    obtain ⟨hout, hafter, hshows⟩ := hended.last
    exact ⟨Halt.of?_eq_some.1 hout, hafter, hshows⟩
  · intro halt hout hforced
    rw [Halt.of?_eq_some.2 hout] at hended
    exact hended.forced hforced

def guardedSkip : Stmt :=
  .onLine 1 (.trap (.pattern ⟨.onLine 1, .ignore⟩) (.onLine 2 .skip)
    (.onLine 3 (.always (.onLine 4 .skip) (.onLine 5 .skip))))

def endingMachine : Machine :=
  { Machine.initial { model := {} } {} with
    breakpoints := (BreakpointTable.setStop {} 5 (.onLine 5) .always).2
    link := some { fallback := .terminate } }

/-- In `guardedSkip` neither the cleanup nor the handler has a chance. -/
theorem unwinding_reaches_top_guarded :
    let P : Program := { model := {} }
    let c : Context := {
      inner := { id := 0, title := "", location := .onLine 1 }
      thread := mainThread }
    let out := (Node.stmt guardedSkip).eval (P.engine 9) c endingMachine
    endingMachine.Unwatched ∧ (Halt.of? out.1).map (·.location) = some (.onLine 5) ∧
      ∃ events, out.2.history = events ++ endingMachine.history ∧
        (∀ after halt state before, events = after ++ .unwound halt state :: before →
          out.1 = .error halt ∧ after = [] ∧ out.2.Shows state) ∧
        ∀ halt, out.1 = .error halt → halt.IsForced →
          ∃ state before, events = .unwound halt state :: before := by
  intro P c out
  have hunwatched : endingMachine.Unwatched := by
    refine ⟨?_, fun l hl => Option.some.inj hl ▸ rfl⟩
    exact List.forall_mem_singleton.2 rfl
  exact ⟨hunwatched, by decide +kernel,
    unwinding_reaches_top P 9 (.stmt guardedSkip) c endingMachine hunwatched⟩

end Animator

import Animator.Proofs.Tandem.Basic

/-!
# Pauses

A thread that is asked to pause does so at the next node that it reaches. The debugger sees a stop,
and lets the thread go on. The evaluation then ends as it would have ended without the pause, but
the node where it paused is not treated like the others: the breakpoint of that node is not met, and
in real time the other threads are not offered a turn there.
-/

namespace Animator

/-! ### Breakpoints that count -/

/-- The breakpoint stops threads, if anything depending on how often it was met. -/
def BreakpointKind.Counts : BreakpointKind → Prop
  | .stop .always | .stop (.hits _) => True
  | _ => False

/-- The breakpoint stops threads, and does nothing else. -/
def BreakpointKind.OnlyStops : BreakpointKind → Prop
  | .stop .always | .stop (.hits _) | .catch _ => True
  | _ => False

/-- Whether such a breakpoint stops a thread that meets it for this time. -/
def BreakpointKind.stopsAfter (hits : Nat) : BreakpointKind → Bool
  | .stop .always => true
  | .stop (.hits c) => c.holds hits
  | _ => false

theorem BreakpointKind.Counts.onlyStops {kind : BreakpointKind} (h : kind.Counts) :
    kind.OnlyStops := by
  unfold Counts at h
  split at h
  · trivial
  · trivial
  · exact h.elim

/-- For `takeEffect`, conditions that are evaluated are ruled out, and so are traced expressions. -/
theorem Engine.takeEffect_of_onlyStops (E : Engine) {b : Breakpoint} (hb : b.kind.OnlyStops)
    (location : Location) (c : Context) :
    E.takeEffect b location c = (do
      if b.kind.stopsAfter (b.hits + 1) then E.suspend (.breakpoint b.number) location c
      return b.kind.stopsAfter (b.hits + 1)) := by
  unfold takeEffect
  cases hkind : b.kind with
  | stop condition =>
    cases condition with
    | always | hits => rfl
    | expr =>
      rw [hkind] at hb
      exact hb.elim
  | trace =>
    rw [hkind] at hb
    exact hb.elim
  | «catch» => rfl

/-- The `Breakpoint` after the one with a number was met, if a number is given. -/
def Breakpoint.met (number : Option Nat) (b : Breakpoint) : Breakpoint :=
  if number = some b.number then { b with hits := b.hits + 1 } else b

namespace BreakpointTable

variable (t : BreakpointTable)

def numberAt? (node : NodeId) : Option Nat :=
  (t.at? node).map (·.number)

def hit? (number : Option Nat) : BreakpointTable :=
  number.elim t t.hit

theorem at?_hit (number : Nat) (node : NodeId) :
    (t.hit number).at? node = (t.at? node).map (Breakpoint.met (some number)) := by
  have hpoints : (t.hit number).points = t.points.map (Breakpoint.met (some number)) := by
    refine List.map_congr_left fun b _ => ?_
    by_cases hb : b.number = number <;> simp [Breakpoint.met, Breakpoint.countHit, hb, Ne.symm]
  have hnode : (fun b : Breakpoint => b.node? == some node) ∘ Breakpoint.met (some number) =
      fun b => b.node? == some node := by
    funext b
    simp only [Function.comp_apply, Breakpoint.met]
    split <;> rfl
  rw [at?, hpoints, List.find?_map, hnode, at?]

theorem at?_hit? (number : Option Nat) (node : NodeId) :
    (t.hit? number).at? node = (t.at? node).map (Breakpoint.met number) := by
  cases number with
  | some number => exact t.at?_hit number node
  | none => exact Option.map_id'.symm

theorem hit_comm (i j : Nat) : (t.hit i).hit j = (t.hit j).hit i := by
  have hcomm : (fun b : Breakpoint => (b.countHit i).countHit j) =
      fun b => (b.countHit j).countHit i := by
    funext b
    unfold Breakpoint.countHit
    by_cases hi : b.number == i <;> by_cases hj : b.number == j <;> simp_all
  simp only [hit, List.map_map, Function.comp_def, hcomm]

theorem hit_hit? (number : Option Nat) (n : Nat) :
    (t.hit? number).hit n = (t.hit n).hit? number := by
  cases number with
  | some number => exact t.hit_comm number n
  | none => rfl

variable {t}

theorem counts_hit (ht : ∀ b ∈ t.entries, b.kind.Counts) (number : Nat) :
    ∀ b ∈ (t.hit number).entries, b.kind.Counts := by
  intro b hb
  obtain ⟨b₀, hb₀, hkind⟩ := kind_of_mem_hit hb
  exact hkind ▸ ht b₀ hb₀

end BreakpointTable

/-! ### An obliging debugger -/

/-- The debugger sees every stop, evaluates nothing, and lets the thread go on. -/
structure Link.Obliging (l : Link) : Prop where
  watch : l.watch = []
  script : ∀ command ∈ l.script, command = .continue
  fallback : l.fallback = .continue
  leaveAfter : l.leaveAfter = none
  leaveAt : l.leaveAt = none
  gone : l.gone = false

theorem Link.Obliging.answer {l : Link} (hl : l.Obliging) :
    l.answer.1 = .continue ∧ l.answer.2.Obliging := by
  obtain ⟨hcommand, seen, gone, script, heq, hscript, hgone⟩ :=
    l.answer_cases hl.script hl.fallback rfl
  rw [heq]
  exact ⟨hcommand, { hl with script := hscript, gone := (hgone hl.leaveAt).trans hl.gone }⟩

namespace Aside

variable (a : Aside)

/-- An `Obliging` debugger is attached, and its `breakpoints` count. -/
structure Calm : Prop where
  link : ∃ l, a.link = some l ∧ l.Obliging
  breakpoints : ∀ b ∈ a.breakpoints.entries, b.kind.Counts

def shown (stop : Stop) : Aside :=
  { a with link := a.link.map (·.answer.2), stops := a.stops.push stop }

def struck (b : Breakpoint) (stop : StopReason → Stop) : Aside :=
  let counted := { a with breakpoints := a.breakpoints.hit b.number }
  if b.kind.stopsAfter (b.hits + 1) then counted.shown (stop (.breakpoint b.number)) else counted

def met (node : NodeId) (stop : StopReason → Stop) : Aside :=
  match a.breakpoints.at? node with
  | some b => a.struck b stop
  | none => a

def counted (node : Node) : Aside :=
  { a with history := .visit node :: a.history, hits := a.hits.hit node.location.counter }

/-- A node has been reached, with a `pause` or without one. -/
def reached (node : Node) (pauses : Bool) (stop : StopReason → Stop) : Aside :=
  if pauses then (a.counted node).shown (stop .pause) else (a.counted node).met node.id stop

variable {a}

theorem met_of_some {node : NodeId} {b : Breakpoint} {stop : StopReason → Stop}
    (h : a.breakpoints.at? node = some b) : a.met node stop = a.struck b stop := by
  rw [met, h]

theorem met_of_none {node : NodeId} {stop : StopReason → Stop}
    (h : a.breakpoints.at? node = none) : a.met node stop = a := by
  rw [met, h]

theorem Calm.shown (ha : a.Calm) (stop : Stop) : (a.shown stop).Calm := by
  obtain ⟨l, hlink, hl⟩ := ha.link
  refine ⟨⟨l.answer.2, ?_, hl.answer.2⟩, ha.breakpoints⟩
  rw [Aside.shown, hlink, Option.map_some]

theorem Calm.met (ha : a.Calm) (node : NodeId) (stop : StopReason → Stop) :
    (a.met node stop).Calm := by
  unfold Aside.met
  split
  · next b _ =>
    have hcounted : Calm { a with breakpoints := a.breakpoints.hit b.number } :=
      ⟨ha.link, BreakpointTable.counts_hit ha.breakpoints b.number⟩
    unfold struck
    split
    · exact hcounted.shown _
    · exact hcounted
  · exact ha

theorem Calm.reached (ha : a.Calm) (node : Node) (pauses : Bool) (stop : StopReason → Stop) :
    (a.reached node pauses stop).Calm := by
  have hcounted : (a.counted node).Calm := ⟨ha.link, ha.breakpoints⟩
  cases pauses with
  | true => exact hcounted.shown _
  | false => exact hcounted.met node.id stop

end Aside

/-! ### Stops of a machine with such a debugger -/

/-- The main thread is `Unbothered`, and so is the debugger. -/
structure Machine.Calm (m : Machine) : Prop where
  aside : m.aside.Calm
  thread : ∀ r ∈ m.scheduler.records, r.thread.id = mainThread → r.Unbothered

namespace Machine

variable (m : Machine)

/-- The stop of a thread, as a debugger sees it that evaluates nothing. -/
def stopAt (location : Location) (c : Context) (reason : StopReason) : Stop :=
  { thread := c.thread, threadName := (m.thread c.thread).name, reason, location
    frames := c.frames, bindings := c.visible, watches := [], heap := m.heap, hits := m.hits }

theorem stopAt_counted (node : Node) (location : Location) (c : Context) (reason : StopReason) :
    (m.counted node).stopAt location c reason =
      { m.stopAt location c reason with
        hits := (m.stopAt location c reason).hits.hit node.location.counter } :=
  rfl

variable {m}

theorem Calm.main (hm : m.Calm) :
    (m.thread mainThread).isDebugging = false ∧ (m.thread mainThread).stopRequested = false ∧
      (m.thread mainThread).step = {} := by
  unfold Machine.thread
  split
  · next r hr =>
    have hid : r.thread.id = mainThread := by simpa using List.find?_some hr
    have hthread := hm.thread r (List.mem_of_find?_eq_some hr) hid
    refine ⟨?_, hthread.stopRequested, hthread.step⟩
    rw [Thread.isDebugging, hthread.debugDepth]
    rfl
  · exact ⟨rfl, rfl, rfl⟩

theorem Calm.stepTo (hm : m.Calm) : m.modifyThread mainThread (·.stepTo {}) = m := by
  have hrecords : m.scheduler.records.map (fun r =>
      if r.thread.id == mainThread then { r with thread := r.thread.stepTo {} } else r) =
      m.scheduler.records := by
    refine (List.map_congr_left fun r hr => ?_).trans (List.map_id _)
    split
    · next hid =>
      have hstep := (hm.thread r hr (by simpa using hid)).step
      rw [Thread.stepTo, ← hstep]
      rfl
    · rfl
  simp only [modifyThread, Scheduler.modify, hrecords]

end Machine

@[simp]
theorem StepTarget.stopsAt_none (line : Nat) (c : Context) : StepTarget.stopsAt {} line c = false :=
  rfl

section Stops

variable {E : Engine} {c : Context} {m : Machine} {location : Location} {reason : StopReason}

theorem Engine.consult_calm {l : Link} (hlink : m.link = some l) (hl : l.Obliging) :
    E.consult l reason location c m =
      (.ok .continue, m.beside m.scheduler (m.aside.shown (m.stopAt location c reason))) := by
  have hshown : m.beside m.scheduler (m.aside.shown (m.stopAt location c reason)) =
      { m with
        link := some l.answer.2
        stops := m.stops.push (m.stopAt location c reason) } := by
    have hanswer : m.link.map (·.answer.2) = some l.answer.2 := by rw [hlink, Option.map_some]
    rw [← hanswer]
    rfl
  have hstays : l.Stays := ⟨hl.gone, hl.leaveAfter, hl.leaveAt⟩
  unfold Engine.consult
  rw [if_pos hstays.isAttending, hl.watch, hshown]
  refine (bind_of_ok rfl).trans ?_
  simp only [hl.answer.1]
  rfl

theorem Engine.suspend_calm (hm : m.Calm) (hc : c.thread = mainThread) :
    E.suspend reason location c m =
      (.ok (), m.beside m.scheduler (m.aside.shown (m.stopAt location c reason))) := by
  obtain ⟨l, hlink, hl⟩ := hm.aside.link
  have hshown : (m.beside m.scheduler (m.aside.shown (m.stopAt location c reason))).Calm :=
    ⟨hm.aside.shown _, hm.thread⟩
  rw [E.suspend_apply, show m.link = some l from hlink]
  refine (bind_of_ok (Engine.consult_calm hlink hl)).trans ?_
  change (Except.ok (), Machine.modifyThread _ c.thread (·.stepTo {})) = _
  rw [hc, hshown.stepTo]

theorem Engine.takeEffect_calm {b : Breakpoint} (hm : m.Calm) (hc : c.thread = mainThread)
    (hb : b.kind.Counts) :
    E.takeEffect b location c { m with breakpoints := m.breakpoints.hit b.number } =
      (.ok (b.kind.stopsAfter (b.hits + 1)),
        m.beside m.scheduler (m.aside.struck b (m.stopAt location c))) := by
  have hcounted : Machine.Calm { m with breakpoints := m.breakpoints.hit b.number } :=
    ⟨⟨hm.aside.link, BreakpointTable.counts_hit hm.aside.breakpoints b.number⟩, hm.thread⟩
  rw [E.takeEffect_of_onlyStops hb.onlyStops, Aside.struck]
  cases b.kind.stopsAfter (b.hits + 1) with
  | false => rfl
  | true => exact bind_of_ok (Engine.suspend_calm hcounted hc)

theorem Engine.meetBreakpoint_calm (E : Engine) (node : NodeId) (location : Location) (hm : m.Calm)
    (hc : c.thread = mainThread) :
    ∃ stops, E.meetBreakpoint node location c m =
      (.ok stops, m.beside m.scheduler (m.aside.met node (m.stopAt location c))) := by
  cases hfound : m.breakpoints.at? node with
  | some b =>
    have hb := hm.aside.breakpoints b (BreakpointTable.mem_entries_of_at? hfound)
    rw [Aside.met_of_some hfound, E.meetBreakpoint_of_some location c hfound]
    exact ⟨_, Engine.takeEffect_calm hm hc hb⟩
  | none =>
    rw [Aside.met_of_none hfound]
    exact ⟨false, E.meetBreakpoint_of_none location c hfound⟩

theorem Engine.takeTurn_calm {stopped : Bool} (hm : m.Calm) (hc : c.thread = mainThread) :
    E.takeTurn stopped location c m =
      (.ok (), m.turn mainThread (E.settings.isRealTime && !(m.thread mainThread).isAtomic)) := by
  obtain ⟨-, -, hstep⟩ := hm.main
  refine (bind_of_ok rfl).trans ?_
  dsimp only
  rw [hc]
  cases E.settings.isRealTime with
  | true => cases (m.thread mainThread).isAtomic <;> rfl
  | false =>
    simp only [hstep, StepTarget.stopsAt_none, Bool.and_false, Bool.false_eq_true, if_false,
      Bool.false_and]
    rfl

/-- Reaching a node, with a `pause` to make or with nothing to do. -/
theorem Engine.arrive_calm (node : Node) (hm : m.Calm) (hc : c.thread = mainThread) {pauses : Bool}
    (hrequest : m.scheduler.interrupt = if pauses then .pause else .none) :
    E.arrive node c m = (.ok (),
      Machine.turn (m.taken.beside m.taken.scheduler
          (m.aside.reached node pauses ((m.counted node).stopAt node.location c)))
        mainThread (!pauses && (E.settings.isRealTime && !(m.thread mainThread).isAtomic))) := by
  have hcounted : (m.counted node).taken.Calm :=
    ⟨⟨hm.aside.link, hm.aside.breakpoints⟩, hm.thread⟩
  obtain ⟨hdebugging, hstop, -⟩ := hm.main
  rw [E.arrive_apply, hc, hdebugging, hstop, if_neg Bool.false_ne_true, if_neg Bool.false_ne_true,
    hrequest]
  cases pauses with
  | true => exact Engine.suspend_calm hcounted hc
  | false =>
    obtain ⟨stops, hmeet⟩ := E.meetBreakpoint_calm node.id node.location hcounted hc
    refine (bind_of_ok hmeet).trans (Engine.takeTurn_calm ?_ hc)
    exact ⟨hcounted.aside.met _ _, hcounted.thread⟩

theorem Engine.raise_calm {α : Type} {v : Value} (hm : m.Calm) :
    E.raise (α := α) v location c m = (.error (.exit v location), m) := by
  refine E.raise_of_none v location c fun b hb => ?_
  have hcounts := hm.aside.breakpoints b (List.mem_append_right _ hb)
  unfold Breakpoint.catches
  cases hkind : b.kind with
  | «catch» =>
    rw [hkind] at hcounts
    exact hcounts.elim
  | _ => rfl

theorem Engine.reportFatal_calm {message : String} (hm : m.Calm) (hc : c.thread = mainThread) :
    E.reportFatal message location c m =
      (.ok (), m.beside m.scheduler (m.aside.shown (m.stopAt location c (.fatal message)))) := by
  obtain ⟨l, hlink, hl⟩ := hm.aside.link
  rw [E.reportFatal_apply, hc, hm.main.1, if_neg Bool.false_ne_true, show m.link =
    some l from hlink]
  exact bind_of_ok (Engine.consult_calm hlink hl)

theorem Engine.fail_calm {α : Type} {code : Code} {message : String} (hm : m.Calm)
    (hc : c.thread = mainThread) :
    E.fail (α := α) code message location c m =
      if E.settings.exceptions then
        (.error (.exit (.tuple [.int code.number, .ofText message]) location), m)
      else
        (.error (.fatal code message location c.rootOf.inner.title),
          m.beside m.scheduler
            (m.aside.shown (m.stopAt location c (.fatal (code.text ++ ": " ++ message))))) := by
  unfold Engine.fail
  cases E.settings.exceptions with
  | true => exact Engine.raise_calm hm
  | false => exact bind_of_ok (Engine.reportFatal_calm hm hc)

theorem Engine.comeBack_calm {stepping : Bool} {inner : Context} (hm : m.Calm)
    (hc : c.thread = mainThread) :
    E.comeBack stepping location c inner m =
      (.ok (), { m with history := .returned stepping location c :: m.history }) := by
  refine (bind_of_ok rfl).trans ((bind_of_ok rfl).trans ?_)
  have hstep : (Machine.thread { m with history := .returned stepping location c :: m.history }
      c.thread).step = {} := by
    rw [hc]
    exact hm.main.2.2
  simp only [hstep, StepTarget.stopsAt_none, Bool.and_false, Bool.false_eq_true, if_false]
  rfl

end Stops

/-! ### With a pause and without one -/

def visitedNodes (history : List Event) : List Node :=
  history.filterMap fun
    | .visit node => some node
    | _ => none

def Stop.isAt (number : Option Nat) (stop : Stop) : Bool :=
  match stop.reason with
  | .breakpoint n => number == some n
  | _ => false

/-- The stop at a `breakpoint` that is met, if it stops. -/
def Breakpoint.stops (b : Breakpoint) (stop : StopReason → Stop) : List Stop :=
  if b.kind.stopsAfter (b.hits + 1) then [stop (.breakpoint b.number)] else []

/-- The stops of two evaluations, the second of which has `Paused` at a place. It has then missed
the breakpoint with a number, if a number is given. -/
inductive Stop.Paused (location : Location) (number : Option Nat) :
    List Stop → List Stop → Prop where
  | intro (before : List Stop) (pause : Stop) (after after' : List Stop)
      (hreason : pause.reason = .pause) (hlocation : pause.location = location)
      (honce : ∀ stop ∈ after ++ after', stop.reason ≠ .pause)
      (hsame : after.filter (!·.isAt number) = after'.filter (!·.isAt number)) :
    Paused location number (before ++ after) (before ++ pause :: after')

/-- What is `Aside` in two evaluations, the second of which has `Paused` at a place. It has then
missed the breakpoint with a number, if a number is given. -/
structure Aside.PausedAt (location : Location) (number : Option Nat) (a a' : Aside) : Prop where
  hits : a.hits = a'.hits
  history : a.history = a'.history
  breakpoints : a.breakpoints = a'.breakpoints.hit? number
  stops : Stop.Paused location number a.stops.toList a'.stops.toList

section PausedAt

variable {l : Location} {number : Option Nat} {a a' : Aside}

theorem Stop.Paused.append {s s' more more' : List Stop} (h : Stop.Paused l number s s')
    (honce : ∀ stop ∈ more ++ more', stop.reason ≠ .pause)
    (hsame : more.filter (!·.isAt number) = more'.filter (!·.isAt number)) :
    Stop.Paused l number (s ++ more) (s' ++ more') := by
  rcases h with ⟨before, pause, after, after', hreason, hlocation, honce₀, hsame₀⟩
  rw [List.append_assoc, List.append_assoc, List.cons_append]
  refine ⟨before, pause, _, _, hreason, hlocation, fun stop hstop => ?_, ?_⟩
  · have hmore := honce stop
    have hold := honce₀ stop
    simp only [List.mem_append] at hstop hmore hold
    tauto
  · rw [List.filter_append, List.filter_append, hsame, hsame₀]

theorem Stop.Paused.exists_of_none {s s' : List Stop} (h : Stop.Paused l none s s') :
    ∃ before pause after, pause.reason = .pause ∧ pause.location = l ∧ s = before ++ after ∧
      s' = before ++ pause :: after := by
  have hall : ∀ stops : List Stop, stops.filter (!·.isAt none) = stops := by
    intro stops
    refine List.filter_eq_self.2 fun stop _ => ?_
    unfold Stop.isAt
    split <;> rfl
  rcases h with ⟨before, pause, after, after', hreason, hlocation, -, hsame⟩
  rw [hall, hall] at hsame
  exact ⟨before, pause, after, hreason, hlocation, rfl, by rw [hsame]⟩

theorem Aside.stops_struck (b : Breakpoint) (stop : StopReason → Stop) :
    (a.struck b stop).stops.toList = a.stops.toList ++ b.stops stop := by
  unfold struck Breakpoint.stops
  dsimp only
  split
  · exact Array.toList_push
  · exact (List.append_nil _).symm

theorem Aside.struck_eq (b : Breakpoint) (stop : StopReason → Stop) :
    (a.struck b stop).hits = a.hits ∧ (a.struck b stop).history = a.history ∧
      (a.struck b stop).breakpoints = a.breakpoints.hit b.number := by
  unfold struck
  dsimp only
  split <;> exact ⟨rfl, rfl, rfl⟩

theorem Breakpoint.reason_of_mem_stops {b : Breakpoint} {stop : StopReason → Stop}
    (hstop : ∀ reason, (stop reason).reason = reason) {other : Stop} (h : other ∈ b.stops stop) :
    other.reason ≠ .pause := by
  unfold Breakpoint.stops at h
  split at h
  · rw [List.mem_singleton.1 h, hstop]
    nofun
  · exact absurd h List.not_mem_nil

theorem Breakpoint.filter_stops (b : Breakpoint) {stop : StopReason → Stop}
    (hstop : ∀ reason, (stop reason).reason = reason) :
    (b.stops stop).filter (!·.isAt (some b.number)) = [] := by
  unfold Breakpoint.stops
  split <;> simp [Stop.isAt, hstop]

theorem Breakpoint.number_met (b : Breakpoint) : (b.met number).number = b.number := by
  unfold Breakpoint.met
  split <;> rfl

theorem Breakpoint.filter_stops_met (b : Breakpoint) {stop : StopReason → Stop}
    (hstop : ∀ reason, (stop reason).reason = reason) :
    ((b.met number).stops stop).filter (!·.isAt number) =
      (b.stops stop).filter (!·.isAt number) := by
  by_cases hnumber : number = some b.number
  · have hmissed := (b.met number).filter_stops hstop
    rw [b.number_met, ← hnumber] at hmissed
    rw [hmissed, hnumber, b.filter_stops hstop]
  · rw [Breakpoint.met, if_neg hnumber]

/-- The first one meets the breakpoint of a node, and the second one pauses there (`PausedAt`). -/
theorem Aside.pausedAt_of_shown (a : Aside) (node : NodeId) {stop : StopReason → Stop}
    (hreason : ∀ reason, (stop reason).reason = reason) (hlocation : (stop .pause).location = l) :
    Aside.PausedAt l (a.breakpoints.numberAt? node) (a.met node stop) (a.shown (stop .pause)) := by
  have hpaused : ∀ number {after : List Stop}, (∀ other ∈ after, other.reason ≠ .pause) →
      after.filter (!·.isAt number) = [] →
      Stop.Paused l number (a.stops.toList ++ after) (a.shown (stop .pause)).stops.toList := by
    intro number after honce hmissed
    rw [Aside.shown, Array.toList_push]
    exact ⟨_, _, _, [], hreason _, hlocation, by simpa using honce, hmissed⟩
  cases hfound : a.breakpoints.at? node with
  | none =>
    rw [Aside.met_of_none hfound, BreakpointTable.numberAt?, hfound]
    refine ⟨rfl, rfl, rfl, ?_⟩
    have hnone := hpaused none (List.forall_mem_nil _) List.filter_nil
    rwa [List.append_nil] at hnone
  | some b =>
    obtain ⟨hhits, hhistory, hbreakpoints⟩ := a.struck_eq b stop
    rw [Aside.met_of_some hfound, BreakpointTable.numberAt?, hfound]
    refine ⟨hhits, hhistory, hbreakpoints, ?_⟩
    rw [Aside.stops_struck]
    exact hpaused _ (fun _ => Breakpoint.reason_of_mem_stops hreason) (b.filter_stops hreason)

namespace Aside.PausedAt

variable (h : Aside.PausedAt l number a a')

include h

theorem shown {stop : Stop} (hstop : stop.reason ≠ .pause) :
    Aside.PausedAt l number (a.shown stop) (a'.shown stop) := by
  refine ⟨h.hits, h.history, h.breakpoints, ?_⟩
  rw [Aside.shown, Aside.shown, Array.toList_push, Array.toList_push]
  exact h.stops.append (by simpa using hstop) rfl

theorem met (node : NodeId) {stop : StopReason → Stop}
    (hstop : ∀ reason, (stop reason).reason = reason) :
    Aside.PausedAt l number (a.met node stop) (a'.met node stop) := by
  have hfind : a.breakpoints.at? node = (a'.breakpoints.at? node).map (Breakpoint.met number) := by
    rw [h.breakpoints, BreakpointTable.at?_hit?]
  cases hfound : a'.breakpoints.at? node with
  | none =>
    rw [hfound] at hfind
    rw [Aside.met_of_none hfound, Aside.met_of_none hfind]
    exact h
  | some b =>
    rw [hfound] at hfind
    rw [Aside.met_of_some hfound, Aside.met_of_some hfind]
    obtain ⟨hhits, hhistory, hbreakpoints⟩ := a.struck_eq (b.met number) stop
    obtain ⟨hhits', hhistory', hbreakpoints'⟩ := a'.struck_eq b stop
    refine ⟨?_, ?_, ?_, ?_⟩
    · rw [hhits, hhits', h.hits]
    · rw [hhistory, hhistory', h.history]
    · rw [hbreakpoints, hbreakpoints', h.breakpoints, b.number_met, BreakpointTable.hit_hit?]
    · rw [Aside.stops_struck, Aside.stops_struck]
      refine h.stops.append (fun other hother => ?_) (b.filter_stops_met hstop)
      rcases List.mem_append.1 hother with hother | hother
      · exact Breakpoint.reason_of_mem_stops hstop hother
      · exact Breakpoint.reason_of_mem_stops hstop hother

theorem reached (node : Node) {stop : StopReason → Stop}
    (hstop : ∀ reason, (stop reason).reason = reason) :
    Aside.PausedAt l number (a.reached node false stop) (a'.reached node false stop) := by
  have hcounted : Aside.PausedAt l number (a.counted node) (a'.counted node) :=
    { h with
      hits := congrArg (Hits.hit · node.location.counter) h.hits
      history := congrArg (Event.visit node :: ·) h.history }
  exact hcounted.met node.id hstop

end Aside.PausedAt

theorem Aside.history_reached (node : Node) (pauses : Bool) (stop : StopReason → Stop) :
    (a.reached node pauses stop).history = .visit node :: a.history := by
  cases pauses with
  | true => rfl
  | false =>
    change ((a.counted node).met node.id stop).history = (a.counted node).history
    unfold met
    split
    · exact (Aside.struck_eq _ stop).2.1
    · rfl

end PausedAt

namespace Tandem

/-- What is `Aside` in two evaluations that began with one machine, the second one with a pause to
make. -/
inductive Pausing (P : Program) (m₀ : Machine) : Lag → Aside → Aside → Prop where
  | before (a : Aside) (hcalm : a.Calm) (hbreakpoints : a.breakpoints = m₀.breakpoints)
      (hvisited : visitedNodes a.history = visitedNodes m₀.history) : Pausing P m₀ ⟨0, true⟩ a a
  /-- The second one paused at the first node that was visited. -/
  | after (turns : Nat) (node : Node) (later : List Node) (a a' : Aside) (hcalm : a.Calm)
      (hcalm' : a'.Calm) (hturns : turns = 0 ∨ turns = 1 ∧ P.settings.isRealTime = true)
      (hvisited : visitedNodes a'.history = later ++ node :: visitedNodes m₀.history)
      (hpaused : Aside.PausedAt node.location (m₀.breakpoints.numberAt? node.id) a a') :
    Pausing P m₀ ⟨turns, false⟩ a a'

namespace Pausing

variable {P : Program} {m₀ : Machine} {turns : Nat} {lag : Lag} {a a' : Aside} {node : Node}
  {stop : StopReason → Stop}

theorem calm (h : Pausing P m₀ lag a a') : a.Calm ∧ a'.Calm := by
  cases h with
  | before _ hcalm => exact ⟨hcalm, hcalm⟩
  | after _ _ _ _ _ hcalm hcalm' => exact ⟨hcalm, hcalm'⟩

theorem hits (h : Pausing P m₀ lag a a') : a.hits = a'.hits := by
  cases h with
  | before => rfl
  | after _ _ _ _ _ _ _ _ _ hpaused => exact hpaused.hits

theorem eq_of_pending (h : Pausing P m₀ ⟨turns, true⟩ a a') :
    turns = 0 ∧ a = a' ∧ visitedNodes a.history = visitedNodes m₀.history := by
  cases h with
  | before _ _ _ hvisited => exact ⟨rfl, rfl, hvisited⟩

theorem first (h : Pausing P m₀ ⟨turns, true⟩ a a') (stop : StopReason → Stop)
    (hreason : ∀ reason, (stop reason).reason = reason)
    (hlocation : ∀ reason, (stop reason).location = node.location) {more : Nat}
    (hmore : more = 0 ∨ more = 1 ∧ P.settings.isRealTime = true) :
    turns = 0 ∧
      Pausing P m₀ ⟨more, false⟩ (a.reached node false stop) (a'.reached node true stop) := by
  cases h with
  | before _ hcalm hbreakpoints hvisited =>
    refine ⟨rfl, .after more node [] _ _ (hcalm.reached ..) (hcalm.reached ..) hmore ?_ ?_⟩
    · rw [Aside.history_reached, ← hvisited]
      rfl
    · rw [← hbreakpoints]
      exact (a.counted node).pausedAt_of_shown node.id hreason (hlocation _)

theorem pausedAt (h : Pausing P m₀ ⟨turns, false⟩ a a') :
    ∃ node later, visitedNodes a'.history = later ++ node :: visitedNodes m₀.history ∧
      (turns = 0 ∨ turns = 1 ∧ P.settings.isRealTime = true) ∧
      Aside.PausedAt node.location (m₀.breakpoints.numberAt? node.id) a a' := by
  cases h with
  | after _ node later _ _ _ _ hturns hvisited hpaused =>
    exact ⟨node, later, hvisited, hturns, hpaused⟩

theorem next (h : Pausing P m₀ ⟨turns, false⟩ a a')
    (hreason : ∀ reason, (stop reason).reason = reason) :
    Pausing P m₀ ⟨turns, false⟩ (a.reached node false stop) (a'.reached node false stop) := by
  cases h with
  | after _ first later _ _ hcalm hcalm' hturns hvisited hpaused =>
    refine .after turns first (node :: later) _ _ (hcalm.reached ..) (hcalm'.reached ..) hturns ?_
      (hpaused.reached node hreason)
    rw [Aside.history_reached, List.cons_append, ← hvisited]
    rfl

theorem shown (h : Pausing P m₀ lag a a') {stop : Stop} (hstop : stop.reason ≠ .pause) :
    Pausing P m₀ lag (a.shown stop) (a'.shown stop) := by
  cases h with
  | before _ hcalm hbreakpoints hvisited => exact .before _ (hcalm.shown stop) hbreakpoints hvisited
  | after _ first later _ _ hcalm hcalm' hturns hvisited hpaused =>
    exact .after _ first later _ _ (hcalm.shown stop) (hcalm'.shown stop) hturns hvisited
      (hpaused.shown hstop)

/-- Neither a place that is counted less nor a call that comes back is a visit for `Pausing`. -/
theorem unvisited (h : Pausing P m₀ lag a a') (f : Hits → Hits) (events : List Event)
    (hevents : visitedNodes events = []) :
    Pausing P m₀ lag { a with hits := f a.hits, history := events ++ a.history }
      { a' with hits := f a'.hits, history := events ++ a'.history } := by
  have hvisits : ∀ history, visitedNodes (events ++ history) = visitedNodes history := by
    intro history
    rw [visitedNodes, List.filterMap_append, ← visitedNodes, ← visitedNodes, hevents,
      List.nil_append]
  cases h with
  | before _ hcalm hbreakpoints hvisited =>
    exact .before _ { hcalm with } hbreakpoints ((hvisits _).trans hvisited)
  | after _ first later _ _ hcalm hcalm' hturns hvisited hpaused =>
    exact .after _ first later _ _ { hcalm with } { hcalm' with } hturns
      ((hvisits _).trans hvisited)
      { hpaused with
        hits := congrArg f hpaused.hits
        history := congrArg (events ++ ·) hpaused.history }

end Pausing

/-- Two evaluations that begin with one machine, the second one with a pause to make. -/
def pausing (P : Program) (m₀ : Machine) : Coupling :=
  tandem (Pausing P m₀) fun counter h => h.unvisited (·.unhit counter) [] rfl

variable {P : Program} {m₀ m m' : Machine}

theorem calm_of_related (h : Tandem (Pausing P m₀) m m') : m.Calm ∧ m'.Calm := by
  rcases h with ⟨lag, a, _, -, -, hrests, hsides⟩
  obtain ⟨ha, ha'⟩ := hsides.calm
  refine ⟨⟨⟨ha.link, ha.breakpoints⟩, fun r hr hid => ?_⟩, ha', hrests⟩
  obtain ⟨r₀, hr₀, rfl⟩ := List.mem_map.1 hr
  exact { hrests r₀ hr₀ hid with }

theorem stopAt_of_related (h : Tandem (Pausing P m₀) m m') (location : Location) (c : Context) :
    m.stopAt location c = m'.stopAt location c := by
  have hthread : m.thread c.thread = m'.thread c.thread := h.thread c.thread
  have hheap : m.heap = m'.heap := h.read fun _ _ => rfl
  have hhits : m.hits = m'.hits := by
    rcases h with ⟨lag, a, _, -, -, -, hsides⟩
    exact hsides.hits
  funext reason
  simp only [Machine.stopAt, hthread, hheap, hhits]

theorem attends_pausing (P : Program) (m₀ : Machine) : (pausing P m₀).Attends P where
  fail := by
    rintro α Q E E' code message location c _ S ⟨rfl, hc⟩ m m' h
    obtain ⟨hm, hm'⟩ := calm_of_related h
    rw [Engine.fail_calm hm hc, Engine.fail_calm hm' hc, S.settings, stopAt_of_related h]
    right
    split
    · exact ⟨.halt (Halt.from_all _), h⟩
    · exact ⟨.halt (Halt.from_all _), h.beside fun _ hsides => hsides.shown StopReason.noConfusion⟩
  raise := by
    rintro α Q E E' v location c _ S ⟨rfl, hc⟩ m m' h
    obtain ⟨hm, hm'⟩ := calm_of_related h
    rw [Engine.raise_calm hm, Engine.raise_calm hm']
    exact .inr ⟨.halt (Halt.from_all _), h⟩
  comeBack := by
    rintro E E' t _ location c _ i _ S ⟨rfl, hc⟩ - rfl m m' h
    obtain ⟨hm, hm'⟩ := calm_of_related h
    rw [Engine.comeBack_calm hm hc, Engine.comeBack_calm hm' hc]
    exact .inr ⟨.value rfl, h.beside fun _ hsides => hsides.unvisited id [_] rfl⟩
  arrive := by
    rintro E E' node c _ S ⟨rfl, hc⟩ m m' h
    obtain ⟨hm, hm'⟩ := calm_of_related h
    have hthread : m.thread mainThread = m'.thread mainThread := h.thread mainThread
    have hstop : (m.counted node).stopAt node.location c =
        (m'.counted node).stopAt node.location c := by
      funext reason
      rw [m.stopAt_counted, m'.stopAt_counted, stopAt_of_related h]
    rcases h with ⟨⟨turns, pending⟩, a, _, hrequest, hfresh, hrests, hsides⟩
    -- The pause is made by the second evaluation only.
    have hnone : (((Lag.mk turns pending).mask a).machine m').scheduler.interrupt =
        if false then .pause else .none := by
      refine (congrArg ((Lag.mk turns pending).mask a).request hrequest).trans ?_
      cases pending <;> rfl
    have hrun := Engine.arrive_calm (E := E) node hm hc hnone
    have hrun' := Engine.arrive_calm (E := E') node hm' hc hrequest
    have hon : E.settings.isRealTime && !(m'.thread mainThread).isAtomic →
        P.settings.isRealTime = true := by
      rw [Engine.settings, S.program]
      exact fun h => (Bool.and_eq_true_iff.1 h).1
    rw [hrun, hrun', hthread, hstop, S.settings]
    generalize (E.settings.isRealTime && !(m'.thread mainThread).isAtomic) = on at hon ⊢
    have hsides' : ∀ {lag : Lag} {a₁ a₁' : Aside}, lag.pending = false → Pausing P m₀ lag a₁ a₁' →
        Tandem (Pausing P m₀) ((lag.mask a₁).machine m'.taken)
          (m'.taken.beside m'.taken.scheduler a₁') := by
      intro lag a₁ a₁' hlag h
      refine ⟨lag, a₁, m'.taken.beside m'.taken.scheduler a₁', ?_, hfresh, hrests, h⟩
      rw [hlag]
      rfl
    refine .inr ⟨.value rfl, ?_⟩
    cases pending with
    | false => exact (hsides' rfl (hsides.next fun _ => rfl)).turn on
    | true =>
      cases on with
      | false =>
        obtain ⟨rfl, h⟩ := hsides.first ((m'.counted node).stopAt node.location c) (fun _ => rfl)
          (fun _ => rfl) (.inl rfl)
        have hsame := hsides' rfl h
        exact hsame
      | true =>
        obtain ⟨rfl, h⟩ := hsides.first ((m'.counted node).stopAt node.location c) (fun _ => rfl)
          (fun _ => rfl) (.inr ⟨rfl, hon rfl⟩)
        have hahead := hsides' rfl h
        rw [Mask.machine, ← Lag.yieldPoint_mask 0 false] at hahead
        exact hahead

end Tandem

/-! ### The difference that a pause makes -/

namespace Machine

/-- The machine with a `request` to whichever thread checks for it first. -/
def asked (m : Machine) (request : Interrupt) : Machine :=
  { m with scheduler := { m.scheduler with interrupt := request } }

/-- How the machines differ at the end of two evaluations, the second of which has paused at a
place. It has then missed the breakpoint with a number, if a number is given, and in real time it
may have offered the other threads a turn less. -/
structure PausedAt (P : Program) (location : Location) (number : Option Nat)
    (free paused : Machine) : Prop where
  same : free = paused.beside free.scheduler free.aside
  turns : ∃ turns, free.scheduler = paused.scheduler.modify mainThread (·.ahead turns) ∧
    (turns = 0 ∨ turns = 1 ∧ P.settings.isRealTime = true)
  aside : Aside.PausedAt location number free.aside paused.aside

/-- One stop more is all that is different. -/
def PausedOnly (location : Location) (free paused : Machine) : Prop :=
  ∃ before stop after, stop.reason = .pause ∧ stop.location = location ∧
    free.stops.toList = before ++ after ∧
    paused = { free with link := paused.link, stops := (before ++ stop :: after).toArray }

variable {P : Program} {m free paused : Machine}

/-- Outside of real time, and if no breakpoint was missed, one stop more (`PausedOnly`) is all that
is different. -/
theorem PausedAt.only {location : Location} (h : PausedAt P location none free paused)
    (hplain : P.settings.isRealTime = false) : PausedOnly location free paused := by
  obtain ⟨turns, hscheduler, hturns⟩ := h.turns
  obtain rfl : turns = 0 := hturns.resolve_right fun hone => by simp [hplain] at hone
  have hzero : free.scheduler = paused.scheduler := by
    rw [hscheduler]
    exact (Lag.scheduler_mask ⟨0, false⟩ (a := free.aside)).symm.trans (Lag.mask_zero false)
  have hhits : free.hits = paused.hits := h.aside.hits
  have hhistory : free.history = paused.history := h.aside.history
  have hbreakpoints : free.breakpoints = paused.breakpoints := h.aside.breakpoints
  obtain ⟨before, stop, after, hreason, hlocation, hfree, hpaused⟩ := h.aside.stops.exists_of_none
  refine ⟨before, stop, after, hreason, hlocation, hfree, ?_⟩
  rw [← hpaused, h.same]
  change paused = paused.beside free.scheduler
    ⟨free.hits, free.breakpoints, paused.link, paused.stops, free.history⟩
  rw [hzero, hhits, hbreakpoints, hhistory]
  rfl

end Machine

/-- An evaluation with a `pause` to make ends like the one without it, with the same cells, objects
and clocks, and has reached the same places as often. Either it visits nothing and the pause is
still to be made, or it pauses at the first node that is visited. Then it has seen one stop more,
and it has missed the breakpoint of that node, and a turn at most if this is real time. -/
theorem pause_skips_breakpoint_and_turn {P : Program} {n : Nat} {m : Machine} (entry : Entry)
    (hm : m.Calm) (hfresh : mainThread < m.scheduler.nextId)
    (hrequest : m.scheduler.interrupt = .none) :
    let free := entry.run (P.engine n) m
    let paused := entry.run (P.engine n) (m.asked .pause)
    free.1 = paused.1 ∧ free.2.heap = paused.2.heap ∧ free.2.hits = paused.2.hits ∧
      (∀ id, free.2.scheduler.time id = paused.2.scheduler.time id) ∧
      (visitedNodes free.2.history = visitedNodes m.history ∧ paused.2 = free.2.asked .pause ∨
        ∃ node later,
          visitedNodes free.2.history = later ++ node :: visitedNodes m.history ∧
          Machine.PausedAt P node.location (m.breakpoints.numberAt? node.id) free.2 paused.2 ∧
          (P.settings.isRealTime = false → m.breakpoints.at? node.id = none →
            Machine.PausedOnly node.location free.2 paused.2)) := by
  have hbegin : Tandem (Tandem.Pausing P m) m (m.asked .pause) := by
    have hlead : ((Lag.mk 0 true).mask m.aside).machine (m.asked .pause) = m := by
      rw [Mask.machine, Lag.mask_zero, if_pos rfl, ← hrequest]
      rfl
    have h : Tandem (Tandem.Pausing P m) (((Lag.mk 0 true).mask m.aside).machine
        (m.asked .pause)) (m.asked .pause) :=
      ⟨⟨0, true⟩, m.aside, m.asked .pause, rfl, hfresh, hm.thread,
        .before _ hm.aside rfl rfl⟩
    rwa [hlead] at h
  have A := Tandem.attends_pausing P m
  have S := Coupling.engine A n 0 fun h => absurd rfl h
  have hentry := Logic.entry (Coupling.entries S A And.left fun _ => ⟨rfl, rfl⟩) entry.from_all
  rcases Coupling.Holds.eq_of_same hentry m _ hbegin with ⟨hshort, -⟩ | ⟨houtcomes, hrelated⟩
  · exact hshort.elim
  refine ⟨houtcomes.eq, ?_⟩
  generalize (entry.run (P.engine n) m).2 = free at hrelated ⊢
  generalize (entry.run (P.engine n) (m.asked .pause)).2 = paused at hrelated ⊢
  rcases hrelated with ⟨⟨turns, pending⟩, a, _, hasked, -, -, hsides⟩
  cases pending with
  | true =>
    obtain ⟨rfl, rfl, hvisited⟩ := hsides.eq_of_pending
    refine ⟨rfl, rfl, fun id => Mask.time_scheduler _ _ id, .inl ⟨hvisited, ?_⟩⟩
    -- Where the first machine has no request, the second one has the pause.
    have hpause : paused.scheduler.interrupt = .pause := hasked
    rw [Mask.machine, Lag.mask_zero, ← hpause]
    rfl
  | false =>
    obtain ⟨node, later, hvisited, hturns, hpaused⟩ := hsides.pausedAt
    have hat : Machine.PausedAt P node.location (m.breakpoints.numberAt? node.id)
        (((Lag.mk turns false).mask a).machine paused) paused :=
      ⟨rfl, ⟨turns, Lag.scheduler_mask _, hturns⟩, hpaused⟩
    refine ⟨rfl, hpaused.hits, fun id =>
      Mask.time_scheduler _ _ id, .inr ⟨node, later, ?_, hat, ?_⟩⟩
    · rw [← hvisited, ← hpaused.history]
      rfl
    · intro hplain hnone
      rw [BreakpointTable.numberAt?, hnone] at hat
      exact hat.only hplain

def emptyProgram (settings : Settings) : Program :=
  { model := { classes := [], modules := [] }, settings }

def sumOnLines : Expr :=
  .onLine 3 (.binary (.onLine 4 (.literal (.int 3))) .add (.onLine 5 (.literal (.int 4))))

/-- A debugger that stops threads on a line. -/
def stoppingOnLine (settings : Settings) (line : Nat) : Machine :=
  { Machine.initial (emptyProgram settings) {} with
    link := some {}
    breakpoints := (BreakpointTable.setStop {} line (.onLine line) (.hits (.ge 1))).2 }

theorem calm_stoppingOnLine (settings : Settings) (line : Nat) :
    (stoppingOnLine settings line).Calm := by
  refine ⟨⟨⟨{}, rfl, ?_⟩, ?_⟩, ?_⟩
  · exact ⟨rfl, List.forall_mem_nil _, rfl, rfl, rfl, rfl⟩
  · exact List.forall_mem_singleton.2 trivial
  · exact List.forall_mem_singleton.2 fun _ => ⟨rfl, rfl, rfl, rfl⟩

def sumRun (settings : Settings) (m : Machine) : Outcome × Machine :=
  (Entry.evaluate sumOnLines).run ((emptyProgram settings).engine 9) m

/-- A `pause` at the sum, which has no breakpoint. One of its parts has one. -/
theorem pause_skips_breakpoint_and_turn_sum :
    let free := sumRun {} (stoppingOnLine {} 4)
    let paused := sumRun {} ((stoppingOnLine {} 4).asked .pause)
    free.1.toOption.map free.2.heap.text = some "7" ∧ free.2.stops.size = 1 ∧ free.1 = paused.1 ∧
      Machine.PausedOnly (.onLine 3) free.2 paused.2 := by
  have hpause := pause_skips_breakpoint_and_turn (P := emptyProgram {}) (n := 9)
    (.evaluate sumOnLines) (calm_stoppingOnLine {} 4) (by decide) rfl
  have hlast : (visitedNodes (sumRun {} (stoppingOnLine {} 4)).2.history).getLast? =
      some (.expr sumOnLines) := rfl
  refine ⟨by decide +kernel, by decide +kernel, hpause.1, ?_⟩
  rcases hpause.2.2.2.2 with ⟨hvisited, -⟩ | ⟨node, later, hvisited, -, honly⟩
  · rw [sumRun, hvisited] at hlast
    cases hlast
  · rw [sumRun, hvisited, show visitedNodes (stoppingOnLine {} 4).history = [] from rfl,
      List.getLast?_concat] at hlast
    obtain rfl := Option.some.inj hlast
    exact honly rfl rfl

/-- But if the sum has a breakpoint then a `pause` there takes the place of the stop at the
breakpoint, and in real time a turn is lost. -/
theorem pause_loses_breakpoint_and_turn :
    let m := stoppingOnLine .realTime 3
    let free := sumRun .realTime m
    let paused := sumRun .realTime (m.asked .pause)
    m.Calm ∧ m.scheduler.interrupt = .none ∧
      free.2.breakpoints.entries.map (·.hits) = [1] ∧
      paused.2.breakpoints.entries.map (·.hits) = [0] ∧
      free.2.scheduler.records.map (·.yields) = [3] ∧
      paused.2.scheduler.records.map (·.yields) = [2] ∧
      free.2.stops.size = 1 ∧ paused.2.stops.size = 1 :=
  ⟨calm_stoppingOnLine _ _, by decide +kernel⟩

end Animator

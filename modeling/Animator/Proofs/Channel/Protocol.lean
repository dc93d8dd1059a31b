import Animator.Proofs.Origin.Machine
import Mathlib.Data.List.Basic

/-!
# Debugging through channels

A front end can debug a thread from outside. Two queues are between them: requests go to the thread
while it is stopped, and events come back. The messages have no addresses. In addition the front end
may give up waiting at any time, and it may leave.

`Channel.Step` is one step of either side, and `Channel.Run` any number of steps in any order. Stops
and evaluations are numbered to tell them apart. Neither side ever looks at these numbers.

What was sent and not yet received depends on where the two sides are (`Channel.Phase`), and
`Channel.Account` says how that goes together with what has happened. Every step keeps it
(`Channel.Step.account`).
-/

namespace Animator

/-- What a front end asks of a stopped thread. -/
inductive Request where
  /-- The value of an expression. -/
  | evaluate (call : Nat) (e : Expr)
  | resume (stop : Nat) (command : Command)

/-- What a front end is told. -/
inductive Notice where
  | stopped (stop : Nat) (shown : Stop)
  /-- An expression has been `evaluated`. -/
  | evaluated (call : Nat) (result : Outcome)

inductive Awaited where
  | stop
  /-- The value of an expression, at a stop. -/
  | value (stop call : Nat)

/-- A thread, a front end, and the messages between them. -/
structure Channel where
  requests : List Request := []
  events : List Notice := []
  /-- The stop that the thread is in, and its context. -/
  stopped : Option (Nat × Context) := none
  machine : Machine
  /-- The stop that the front end knows of and has not answered. -/
  current : Option Nat := none
  awaited : Option Awaited := none
  dropped : Bool := false
  stops : Nat := 0
  calls : Nat := 0

inductive Action where
  /-- The thread stops, and tells the front end. -/
  | sent (stop : Nat) (ctx : Context) (shown : Stop)
  /-- The front end has waited for a stop. -/
  | returned (stop : Nat) (shown : Stop)
  /-- The front end asks for a value. -/
  | asked (stop call : Nat) (e : Expr)
  /-- The thread evaluates an expression. -/
  | evaluated (stop call : Nat) (e : Expr) (result : Outcome)
  /-- The front end gets a value. -/
  | heard (stop call : Nat) (result : Outcome)
  /-- The front end gets none. -/
  | gaveUp (stop call : Nat)
  /-- The front end gives a `command`. -/
  | resumed (stop : Nat) (command : Command)
  | answered (stop : Nat) (command : Command)
  | dropped

namespace Action

def stop? : Action → Option Nat
  | .sent n _ _ | .returned n _ | .asked n _ _ | .evaluated n _ _ _ | .heard n _ _ | .gaveUp n _
  | .resumed n _ | .answered n _ => some n
  | .dropped => none

def sent? : Action → Option (Nat × Stop)
  | .sent n _ shown => some (n, shown)
  | _ => none

def returned? : Action → Option (Nat × Stop)
  | .returned n shown => some (n, shown)
  | _ => none

def asked? : Action → Option (Nat × Expr)
  | .asked _ k e => some (k, e)
  | _ => none

def heard? : Action → Option Outcome
  | .heard _ _ result => some result
  | _ => none

def answered? : Action → Option (Nat × Command)
  | .answered n command => some (n, command)
  | _ => none

end Action

namespace Request

def call? : Request → Option Nat
  | .evaluate k _ => some k
  | .resume _ _ => none

end Request

namespace Notice

def stop? : Notice → Option (Nat × Stop)
  | .stopped n shown => some (n, shown)
  | .evaluated _ _ => none

def call? : Notice → Option Nat
  | .evaluated k _ => some k
  | .stopped _ _ => none

end Notice

def Awaited.call? : Awaited → Option Nat
  | .value _ k => some k
  | .stop => none

def Machine.shown (m : Machine) (reason : StopReason) (location : Location) (ctx : Context) :
    Stop :=
  { thread := ctx.thread, threadName := (m.thread ctx.thread).name, reason, location
    frames := ctx.frames, bindings := ctx.visible, watches := [], heap := m.heap, hits := m.hits }

namespace Channel

/-- The evaluations that have been asked for, and whose values have not been received. -/
def outstanding (c : Channel) : List Nat :=
  c.events.filterMap (·.call?) ++ c.requests.filterMap (·.call?)

/-- The stops that have been sent and not received. -/
def inFlight (c : Channel) : List (Nat × Stop) :=
  c.events.filterMap (·.stop?)

/-- One step of the thread or of the front end. -/
inductive Step (E : Engine) (c : Channel) : Option Action → Channel → Prop where
  | run (m : Machine) (hstopped : c.stopped = none) : Step E c none { c with machine := m }
  | stop (reason : StopReason) (location : Location) (ctx : Context) (hstopped : c.stopped = none)
      (hopen : c.dropped = false) :
    Step E c (some (.sent c.stops ctx (c.machine.shown reason location ctx)))
      { c with
        events := c.events ++ [.stopped c.stops (c.machine.shown reason location ctx)]
        stopped := some (c.stops, ctx)
        stops := c.stops + 1 }
  /-- The thread stops, but nobody can be told. -/
  | pass (hstopped : c.stopped = none) (hleft : c.dropped = true) :
    Step E c (some (.answered c.stops .continue)) { c with stops := c.stops + 1 }
  /-- The thread evaluates an expression. -/
  | evaluate {n k : Nat} {ctx : Context} {e : Expr} {rest : List Request} {result : Outcome}
      {m : Machine} (hstopped : c.stopped = some (n, ctx))
      (hrequests : c.requests = .evaluate k e :: rest)
      (heval : E.inspect e ctx c.machine = (.ok result, m)) (hopen : c.dropped = false) :
    Step E c (some (.evaluated n k e result))
      { c with requests := rest, events := c.events ++ [.evaluated k result], machine := m }
  /-- The thread evaluates an expression, but nobody can be told. -/
  | abandon {n k : Nat} {ctx : Context} {e : Expr} {rest : List Request} {result : Outcome}
      {m : Machine} (hstopped : c.stopped = some (n, ctx))
      (hrequests : c.requests = .evaluate k e :: rest)
      (heval : E.inspect e ctx c.machine = (.ok result, m)) (hleft : c.dropped = true) :
    Step E c (some (.answered n .continue))
      { c with requests := rest, stopped := none, machine := m }
  /-- The thread goes on with a `command`. -/
  | obey {n i : Nat} {ctx : Context} {command : Command} {rest : List Request}
      (hstopped : c.stopped = some (n, ctx)) (hrequests : c.requests = .resume i command :: rest) :
    Step E c (some (.answered n command)) { c with requests := rest, stopped := none }
  /-- The thread goes on, since nobody is there to ask it anything. -/
  | hangUp {n : Nat} {ctx : Context} (hstopped : c.stopped = some (n, ctx))
      (hrequests : c.requests = [])
      (hleft : c.dropped = true) :
    Step E c (some (.answered n .continue)) { c with stopped := none }
  /-- The front end begins to `wait` for a stop. -/
  | wait (hopen : c.dropped = false) (hawaited : c.awaited = none) :
    Step E c none { c with awaited := some .stop }
  /-- A value is not what it waits for. -/
  | skip {k : Nat} {result : Outcome} {rest : List Notice} (hawaited : c.awaited = some .stop)
      (hevents : c.events = .evaluated k result :: rest) : Step E c none { c with events := rest }
  /-- The front end receives a stop. -/
  | receive {n : Nat} {shown : Stop} {rest : List Notice} (hawaited : c.awaited = some .stop)
      (hevents : c.events = .stopped n shown :: rest) :
    Step E c (some (.returned n shown))
      { c with events := rest, awaited := none, current := some n }
  /-- The front end does not wait any longer. -/
  | timeout (hawaited : c.awaited = some .stop) : Step E c none { c with awaited := none }
  /-- The front end asks for a value. -/
  | ask {n : Nat} (e : Expr) (hopen : c.dropped = false) (hawaited : c.awaited = none)
      (hcurrent : c.current = some n) :
    Step E c (some (.asked n c.calls e))
      { c with
        requests := c.requests ++ [.evaluate c.calls e]
        awaited := some (.value n c.calls)
        calls := c.calls + 1 }
  /-- The front end receives a value. -/
  | hear {n k j : Nat} {result : Outcome} {rest : List Notice}
      (hawaited : c.awaited = some (.value n k))
      (hevents : c.events = .evaluated j result :: rest) :
    Step E c (some (.heard n k result)) { c with events := rest, awaited := none }
  /-- The front end receives something else. -/
  | miss {n k i : Nat} {shown : Stop} {rest : List Notice}
      (hawaited : c.awaited = some (.value n k))
      (hevents : c.events = .stopped i shown :: rest) :
    Step E c (some (.gaveUp n k)) { c with events := rest, awaited := none }
  /-- The front end does not wait any longer for a value. -/
  | giveUp {n k : Nat} (hawaited : c.awaited = some (.value n k)) :
    Step E c (some (.gaveUp n k)) { c with awaited := none }
  /-- The front end gives a `command`. -/
  | resume {n : Nat} (command : Command) (hopen : c.dropped = false) (hawaited : c.awaited = none)
      (hcurrent : c.current = some n) :
    Step E c (some (.resumed n command))
      { c with requests := c.requests ++ [.resume n command], current := none }
  | drop (hopen : c.dropped = false) (hawaited : c.awaited = none) :
    Step E c (some .dropped) { c with dropped := true }

/-- What can have happened, the latest first. -/
inductive Run (E : Engine) (m : Machine) : List Action → Channel → Prop where
  | start : Run E m [] { machine := m }
  | step {trace : List Action} {c c' : Channel} {a : Option Action} (h : Run E m trace c)
      (hstep : c.Step E a c') : Run E m (a.toList ++ trace) c'

/-! ### What is in the queues -/

/-- A `Request` for a value, at a stop. -/
def Asked (trace : List Action) (n : Nat) (q : Request) : Prop :=
  ∃ k e, q = .evaluate k e ∧ .asked n k e ∈ trace

/-- A value that was `asked` for at a stop. -/
def Told (trace : List Action) (n : Nat) (v : Notice) : Prop :=
  ∃ k e result, v = .evaluated k result ∧ .asked n k e ∈ trace ∧ .evaluated n k e result ∈ trace

/-- The front end has received a stop. It has `asked` questions, and it may have given a `command`.
-/
structure Heard (trace : List Action) (c : Channel) (n : Nat) (questions : List Request)
    (answer : Option Command) : Prop where
  current : c.current = if answer.isSome then none else some n
  requests : c.requests = questions ++ (answer.map (.resume n)).toList
  asked : ∀ q ∈ questions, Asked trace n q
  told : ∀ v ∈ c.events, Told trace n v
  commanded : ∀ command ∈ answer, .resumed n command ∈ trace
  waiting : (∀ k, .gaveUp n k ∉ trace) → c.outstanding = (c.awaited.bind (·.call?)).toList

/-- Where the thread and the front end are. -/
inductive Phase (trace : List Action) (c : Channel) : Prop where
  /-- The thread runs. There may be values that nobody waits for any longer. -/
  | running (hstopped : c.stopped = none) (hcurrent : c.current = none)
      (hrequests : c.requests = [])
      (hevents : c.inFlight = [])
  /-- The thread runs, and the front end has left. -/
  | left (hstopped : c.stopped = none) (hleft : c.dropped = true) (hevents : c.inFlight.length ≤ 1)
  /-- The thread has `stopped`, and the front end has not received that yet. -/
  | unheard {n : Nat} {ctx : Context} {shown : Stop} {values : List Notice}
      (hstopped : c.stopped = some (n, ctx)) (hcurrent : c.current = none) (hrequests : c.requests =
        [])
      (hvalues : values.filterMap (·.stop?) = []) (hevents : c.events = values ++
        [.stopped n shown])
  | heard {n : Nat} {ctx : Context} {questions : List Request} {answer : Option Command}
      (hstopped : c.stopped = some (n, ctx)) (hheard : c.Heard trace n questions answer)

/-- Every message is accounted for. -/
structure Account (trace : List Action) (c : Channel) : Prop where
  dropped : .dropped ∈ trace ↔ c.dropped = true
  /-- Everything that has happened was about a stop with a smaller number. -/
  fresh : ∀ a ∈ trace, ∀ n, a.stop? = some n → n < c.stops
  /-- Every stop is over, or the thread is in it. -/
  finished : ∀ a ∈ trace, ∀ n, a.stop? = some n →
    (∃ command, .answered n command ∈ trace) ∨ ∃ ctx, c.stopped = some (n, ctx)
  /-- The stop that the thread is in has been `sent`. -/
  sent : ∀ n ctx, c.stopped = some (n, ctx) → ∃ shown, .sent n ctx shown ∈ trace
  /-- The thread is in no stop that is over. -/
  answered : ∀ n command, .answered n command ∈ trace → ∀ ctx, c.stopped ≠ some (n, ctx)
  /-- The commands for the stop that the thread is in have not been received. -/
  resumed : ∀ n command, .resumed n command ∈ trace → ∀ ctx, c.stopped = some (n, ctx) →
    .resume n command ∈ c.requests
  /-- The stops that have been sent are in flight, or they have been received. -/
  returned : trace.filterMap (·.sent?) = c.inFlight ++ trace.filterMap (·.returned?)
  /-- A front end that waits for something has not left, and it waits for values at a stop that it
  knows of. -/
  awaited : ∀ w, c.awaited = some w → c.dropped = false ∧ ∀ n k, w = .value n k → c.current = some n
  phase : c.Phase trace

variable {E : Engine} {trace trace' : List Action} {c c' : Channel} {a : Option Action} {n k : Nat}
  {ctx : Context} {command : Command}

theorem Asked.mono {q : Request} (h : Asked trace n q) (hsub : trace ⊆ trace') :
    Asked trace' n q := by
  obtain ⟨k, e, hq, hasked⟩ := h
  exact ⟨k, e, hq, hsub hasked⟩

theorem Told.mono {v : Notice} (h : Told trace n v) (hsub : trace ⊆ trace') :
    Told trace' n v := by
  obtain ⟨k, e, result, hv, hasked, hevaluated⟩ := h
  exact ⟨k, e, result, hv, hsub hasked, hsub hevaluated⟩

theorem Heard.inFlight {questions : List Request} {answer : Option Command}
    (h : c.Heard trace n questions answer) : c.inFlight = [] := by
  refine List.filterMap_eq_nil_iff.2 fun v hv => ?_
  obtain ⟨k, e, result, rfl, -⟩ := h.told v hv
  rfl

namespace Account

variable (h : c.Account trace)

include h

theorem lt_stops (hstopped : c.stopped = some (n, ctx)) : n < c.stops := by
  obtain ⟨shown, hsent⟩ := h.sent n ctx hstopped
  exact h.fresh _ hsent n rfl

theorem attended (hopen : c.dropped = false) (hcurrent : c.current = some n) :
    (∃ ctx, c.stopped = some (n, ctx)) ∧ c.Heard trace n c.requests none := by
  cases h.phase with
  | running _ hnone => simp [hnone] at hcurrent
  | left _ hleft => simp [hopen] at hleft
  | unheard _ hnone => simp [hnone] at hcurrent
  | @heard _ ctx questions answer hstopped hheard =>
    cases answer with
    | some command => simp [hheard.current] at hcurrent
    | none =>
      obtain rfl : _ = n := Option.some.inj (hheard.current.symm.trans hcurrent)
      obtain rfl : c.requests = questions := hheard.requests.trans (List.append_nil questions)
      exact ⟨⟨ctx, hstopped⟩, hheard⟩

theorem heard (hstopped : c.stopped = some (n, ctx)) (hne : c.requests ≠ []) :
    ∃ questions answer, c.Heard trace n questions answer := by
  cases h.phase with
  | running hnone | left hnone => simp [hnone] at hstopped
  | unheard _ _ hnone => exact absurd hnone hne
  | heard hsame hheard =>
    obtain ⟨rfl, -⟩ := Prod.mk.inj (Option.some.inj (hsame.symm.trans hstopped))
    exact ⟨_, _, hheard⟩

theorem awaiting (hawaited : c.awaited = some (.value n k)) :
    c.dropped = false ∧ c.current = some n :=
  ⟨(h.awaited _ hawaited).1, (h.awaited _ hawaited).2 n k rfl⟩

/-- Only a front end that waits for a stop finds one, and then it is the only message. -/
theorem of_stopped {w : Awaited} (hawaited : c.awaited = some w) {shown : Stop} {rest : List Notice}
    (hevents : c.events = .stopped n shown :: rest) :
    (∃ ctx, c.stopped = some (n, ctx)) ∧ c.current = none ∧ c.requests = [] ∧ rest = [] := by
  have hflight : c.inFlight = (n, shown) :: rest.filterMap (·.stop?) := by
    simp [inFlight, hevents, Notice.stop?]
  cases h.phase with
  | running _ _ _ hnone => simp [hflight] at hnone
  | left _ hleft => simp [(h.awaited w hawaited).1] at hleft
  | heard _ hheard =>
    obtain ⟨k, e, result, heq, -⟩ := hheard.told (.stopped n shown) (by simp [hevents])
    cases heq
  | @unheard n' ctx shown' values hstopped hcurrent hrequests hvalues heq =>
    -- No value is before it.
    cases values with
    | nil =>
      obtain ⟨heq, rfl⟩ := List.cons.inj (hevents.symm.trans heq)
      cases heq
      exact ⟨⟨ctx, hstopped⟩, hcurrent, hrequests, rfl⟩
    | cons v values =>
      obtain ⟨rfl, -⟩ := List.cons.inj (hevents.symm.trans heq)
      simp [Notice.stop?] at hvalues

/-- A `command` that is received is the command for the stop that the thread is in, and it is the
last `Request`. -/
theorem of_resume (hstopped : c.stopped = some (n, ctx)) {i : Nat} {rest : List Request}
    (hrequests : c.requests = .resume i command :: rest) :
    c.current = none ∧ i = n ∧ rest = [] ∧ c.inFlight = [] ∧ .resumed n command ∈ trace := by
  obtain ⟨questions, answer, hheard⟩ := h.heard hstopped (by simp [hrequests])
  have heq := hrequests.symm.trans hheard.requests
  cases questions with
  | nil =>
    cases answer with
    | none => cases heq
    | some command' =>
      cases heq
      exact ⟨hheard.current, rfl, rfl, hheard.inFlight, hheard.commanded _ rfl⟩
  | cons q questions =>
    obtain ⟨rfl, -⟩ := List.cons.inj heq
    obtain ⟨k, e, hq, -⟩ := hheard.asked _ List.mem_cons_self
    cases hq

/-- An expression that is to be evaluated was `asked` for at the stop that the thread is in. -/
theorem of_evaluate (hstopped : c.stopped = some (n, ctx)) {e : Expr} {rest : List Request}
    (hrequests : c.requests = .evaluate k e :: rest) :
    .asked n k e ∈ trace ∧
      ∃ questions answer, rest = questions ++ (answer.map (.resume n)).toList ∧
        c.Heard trace n (.evaluate k e :: questions) answer := by
  obtain ⟨questions, answer, hheard⟩ := h.heard hstopped (by simp [hrequests])
  have heq := hrequests.symm.trans hheard.requests
  cases questions with
  | nil => cases answer <;> cases heq
  | cons q questions =>
    obtain ⟨rfl, hrest⟩ := List.cons.inj heq
    obtain ⟨k', e', hq, hasked⟩ := hheard.asked _ List.mem_cons_self
    cases hq
    exact ⟨hasked, questions, answer, hrest, hheard⟩

/-- When the thread runs and the front end has not left, no message is on its way (`inFlight`) but
values that nobody waits for. -/
theorem running (hstopped : c.stopped = none) (hopen : c.dropped = false) :
    c.current = none ∧ c.requests = [] ∧ c.inFlight = [] := by
  cases h.phase with
  | running _ hcurrent hrequests hflight => exact ⟨hcurrent, hrequests, hflight⟩
  | left _ hleft => simp [hopen] at hleft
  | unheard hsome | heard hsome => simp [hstopped] at hsome

end Account

/-! ### What a step keeps -/

namespace Step

variable (hstep : c.Step E a c')

include hstep

theorem stops_le : c.stops ≤ c'.stops := by
  cases hstep <;> simp

theorem stopped_cases (hstopped : c.stopped = some (n, ctx)) :
    (∃ command, a = some (.answered n command)) ∨ c'.stopped = some (n, ctx) := by
  cases hstep with
  | run _ hnone | stop _ _ _ hnone | pass hnone => simp [hnone] at hstopped
  | abandon hsame | obey hsame | hangUp hsame =>
    obtain ⟨rfl, -⟩ := Prod.mk.inj (Option.some.inj (hsame.symm.trans hstopped))
    exact .inl ⟨_, rfl⟩
  | _ => exact .inr hstopped

theorem stopped_of_answered (ha : a = some (.answered n command)) : c'.stopped = none := by
  cases hstep with
  | pass hnone => exact hnone
  | abandon | obey | hangUp => rfl
  | _ => cases ha

theorem resume_mem_requests (ha : a = some (.resumed n command)) :
    .resume n command ∈ c'.requests := by
  cases hstep with
  | resume =>
    cases ha
    exact List.mem_append_right _ List.mem_cons_self
  | _ => cases ha

variable (h : c.Account trace)

include h

theorem dropped : .dropped ∈ a.toList ++ trace ↔ c'.dropped = true := by
  have hbefore := h.dropped
  cases hstep with
  | drop => simp
  | _ => simpa using hbefore

/-- What happens is about the stop that the thread is in, or about a new one. -/
theorem stop_cases {b : Action} (hb : a = some b) (hn : b.stop? = some n) :
    (∃ ctx, c.stopped = some (n, ctx)) ∨
      n = c.stops ∧ n < c'.stops ∧
        ((∃ command, b = .answered n command) ∨ ∃ ctx, c'.stopped = some (n, ctx)) := by
  subst hb
  cases hstep with
  | stop =>
    cases hn
    exact .inr ⟨rfl, Nat.lt_succ_self _, .inr ⟨_, rfl⟩⟩
  | pass =>
    cases hn
    exact .inr ⟨rfl, Nat.lt_succ_self _, .inl ⟨_, rfl⟩⟩
  | evaluate hstopped | abandon hstopped | obey hstopped | hangUp hstopped =>
    cases hn
    exact .inl ⟨_, hstopped⟩
  | receive hawaited hevents =>
    cases hn
    exact .inl (h.of_stopped hawaited hevents).1
  | ask e hopen _ hcurrent | resume command hopen _ hcurrent =>
    cases hn
    exact .inl (h.attended hopen hcurrent).1
  | hear hawaited | miss hawaited | giveUp hawaited =>
    cases hn
    obtain ⟨hopen, hcurrent⟩ := h.awaiting hawaited
    exact .inl (h.attended hopen hcurrent).1
  | drop => cases hn

theorem fresh : ∀ b ∈ a.toList ++ trace, ∀ n, b.stop? = some n → n < c'.stops := by
  intro b hb n hn
  rcases List.mem_append.1 hb with hb | hb
  · rcases hstep.stop_cases h (Option.mem_toList.1 hb) hn with ⟨ctx, hstopped⟩ | ⟨-, hlt, -⟩
    · exact Nat.lt_of_lt_of_le (h.lt_stops hstopped) hstep.stops_le
    · exact hlt
  · exact Nat.lt_of_lt_of_le (h.fresh b hb n hn) hstep.stops_le

theorem finished :
    ∀ b ∈ a.toList ++ trace, ∀ n, b.stop? = some n →
      (∃ command, .answered n command ∈ a.toList ++ trace) ∨ ∃ ctx, c'.stopped = some (n, ctx) := by
  -- A stop that the thread was in is over now, or the thread is still in it.
  have hstopped : ∀ n, (∃ ctx, c.stopped = some (n, ctx)) →
      (∃ command, .answered n command ∈ a.toList ++ trace) ∨ ∃ ctx, c'.stopped = some (n, ctx) := by
    rintro n ⟨ctx, hn⟩
    rcases hstep.stopped_cases hn with ⟨command, rfl⟩ | hsame
    · exact .inl ⟨command, List.mem_cons_self⟩
    · exact .inr ⟨ctx, hsame⟩
  intro b hb n hn
  rcases List.mem_append.1 hb with hb | hb
  · rcases hstep.stop_cases h (Option.mem_toList.1 hb) hn with hat | ⟨-, -, ⟨command, rfl⟩ | hnew⟩
    · exact hstopped n hat
    · exact .inl ⟨command, List.mem_append_left _ hb⟩
    · exact .inr hnew
  · rcases h.finished b hb n hn with ⟨command, hold⟩ | hat
    · exact .inl ⟨command, List.mem_append_right _ hold⟩
    · exact hstopped n hat

theorem sent :
    ∀ n ctx, c'.stopped = some (n, ctx) → ∃ shown, .sent n ctx shown ∈ a.toList ++ trace := by
  intro n ctx hstopped
  cases hstep with
  | stop =>
    cases hstopped
    exact ⟨_, List.mem_cons_self⟩
  | abandon | obey | hangUp => cases hstopped
  | _ =>
    obtain ⟨shown, hshown⟩ := h.sent n ctx hstopped
    exact ⟨shown, List.mem_append_right _ hshown⟩

theorem answered :
    ∀ n command, .answered n command ∈ a.toList ++ trace → ∀ ctx, c'.stopped ≠ some (n, ctx) := by
  intro n command hanswered ctx hstopped
  rcases List.mem_append.1 hanswered with hnow | hold
  · cases (hstep.stopped_of_answered (Option.mem_toList.1 hnow)).symm.trans hstopped
  cases hstep with
  | stop =>
    cases hstopped
    exact Nat.lt_irrefl _ (h.fresh _ hold c.stops rfl)
  | abandon | obey | hangUp => cases hstopped
  | _ => exact h.answered n command hold ctx hstopped

theorem resumed :
    ∀ n command, .resumed n command ∈ a.toList ++ trace → ∀ ctx, c'.stopped = some (n, ctx) →
      .resume n command ∈ c'.requests := by
  intro n command hresumed ctx hstopped
  rcases List.mem_append.1 hresumed with hnow | hold
  · exact hstep.resume_mem_requests (Option.mem_toList.1 hnow)
  cases hstep with
  | stop =>
    cases hstopped
    exact absurd (h.fresh _ hold c.stops rfl) (Nat.lt_irrefl _)
  | abandon | obey | hangUp => cases hstopped
  | evaluate _ hrequests =>
    have hmem := h.resumed n command hold ctx hstopped
    rw [hrequests] at hmem
    exact (List.mem_cons.1 hmem).resolve_left (by simp)
  | ask | resume => exact List.mem_append_left _ (h.resumed n command hold ctx hstopped)
  | _ => exact h.resumed n command hold ctx hstopped

theorem returned :
    (a.toList ++ trace).filterMap (·.sent?) =
      c'.inFlight ++ (a.toList ++ trace).filterMap (·.returned?) := by
  have hbefore := h.returned
  cases hstep with
  | stop reason location ctx hstopped hopen =>
    -- The stop before has been received.
    obtain ⟨-, -, hflight⟩ := h.running hstopped hopen
    simp_all [inFlight, Action.sent?, Action.returned?, Notice.stop?]
  | receive hawaited hevents =>
    obtain ⟨-, -, -, rfl⟩ := h.of_stopped hawaited hevents
    simp_all [inFlight, Action.sent?, Action.returned?, Notice.stop?]
  | miss hawaited hevents =>
    -- A front end that waits for a value is at a stop, so there is no other one.
    obtain ⟨-, hcurrent⟩ := h.awaiting hawaited
    obtain ⟨-, hnone, -⟩ := h.of_stopped hawaited hevents
    simp [hnone] at hcurrent
  | evaluate => simpa [inFlight, Action.sent?, Action.returned?, Notice.stop?] using hbefore
  | skip hawaited hevents | hear hawaited hevents =>
    rw [inFlight, hevents] at hbefore
    exact hbefore
  | _ => exact hbefore

theorem awaited :
    ∀ w, c'.awaited = some w → c'.dropped = false ∧ ∀ n k, w = .value n k → c'.current =
      some n := by
  intro w hw
  cases hstep with
  | wait hopen =>
    cases hw
    refine ⟨hopen, fun n k heq => ?_⟩
    cases heq
  | ask e hopen _ hcurrent =>
    cases hw
    refine ⟨hopen, fun n k heq => ?_⟩
    cases heq
    exact hcurrent
  | receive | timeout | hear | miss | giveUp => cases hw
  | resume _ _ hnone | drop _ hnone => simp [hnone] at hw
  | _ => exact h.awaited w hw

end Step

theorem Phase.length_inFlight_le (h : c.Phase trace) : c.inFlight.length ≤ 1 := by
  cases h with
  | running _ _ _ hflight => simp [hflight]
  | left _ _ hflight => exact hflight
  | unheard _ _ _ hvalues hevents =>
    rw [inFlight, hevents, List.filterMap_append, hvalues]
    exact Nat.le_refl 1
  | heard _ hheard => simp [hheard.inFlight]

/-- A `Phase` goes on as long as the messages are the same. -/
theorem Phase.mono (h : c.Phase trace) (hsub : trace ⊆ trace')
    (hstopped : c'.stopped = c.stopped) (hcurrent : c'.current = c.current)
    (hrequests : c'.requests = c.requests) (hevents : c'.events = c.events)
    (hawaited : c'.awaited.bind (·.call?) = c.awaited.bind (·.call?))
    (hdropped : c.dropped = true → c'.dropped = true) : c'.Phase trace' := by
  have hflight : c'.inFlight = c.inFlight := by rw [inFlight, inFlight, hevents]
  cases h with
  | running hs hcur hr hv =>
    exact .running (hstopped.trans hs) (hcurrent.trans hcur) (hrequests.trans hr) (hflight.trans hv)
  | left hs hl hv => exact .left (hstopped.trans hs) (hdropped hl) (hflight ▸ hv)
  | unheard hs hcur hr hvalues hv =>
    exact .unheard (hstopped.trans hs) (hcurrent.trans hcur) (hrequests.trans hr) hvalues
      (hevents.trans hv)
  | heard hs hheard =>
    refine .heard (hstopped.trans hs) ⟨hcurrent.trans hheard.current,
      hrequests.trans hheard.requests, fun q hq => (hheard.asked q hq).mono hsub,
      fun v hv => (hheard.told v (hevents ▸ hv)).mono hsub,
      fun command hcommand => hsub (hheard.commanded command hcommand), fun hnever => ?_⟩
    have hbefore := hheard.waiting fun k hk => hnever k (hsub hk)
    rw [hawaited, ← hbefore, outstanding, outstanding, hevents, hrequests]

theorem Account.phase_evaluate (h : c.Account trace) {e : Expr} {rest : List Request}
    (result : Outcome) (m : Machine) (hstopped : c.stopped = some (n, ctx))
    (hrequests : c.requests = .evaluate k e :: rest) :
    Phase (.evaluated n k e result :: trace)
      { c with requests := rest, events := c.events ++ [.evaluated k result], machine := m } := by
  have hsub : trace ⊆ .evaluated n k e result :: trace := List.subset_cons_self _ _
  obtain ⟨hasked, questions, answer, hrest, hheard⟩ := h.of_evaluate hstopped hrequests
  refine .heard hstopped ⟨hheard.current, hrest,
    fun q hq => (hheard.asked q (List.mem_cons_of_mem _ hq)).mono hsub, fun v hv => ?_,
    fun command hcommand => hsub (hheard.commanded command hcommand), fun hnever => ?_⟩
  · rcases List.mem_append.1 hv with hv | hv
    · exact (hheard.told v hv).mono hsub
    · exact ⟨k, e, result, List.mem_singleton.1 hv, hsub hasked, List.mem_cons_self⟩
  · -- The evaluation leaves one queue and enters the other.
    have hbefore := hheard.waiting fun k' hk' => hnever k' (hsub hk')
    rw [outstanding, hrequests] at hbefore
    rw [← hbefore, outstanding, List.filterMap_append, List.append_assoc]
    rfl

/-- The front end waits for a stop and passes over an old value. -/
theorem Account.phase_skip (h : c.Account trace) {result : Outcome} {rest : List Notice}
    (hawaited : c.awaited = some .stop) (hevents : c.events = .evaluated k result :: rest) :
    Phase trace { c with events := rest } := by
  have hflight : c.inFlight = rest.filterMap (·.stop?) := by rw [inFlight, hevents]; rfl
  cases h.phase with
  | running hstopped hcurrent hrequests hnone =>
    exact .running hstopped hcurrent hrequests (hflight.symm.trans hnone)
  | left hstopped hleft hle =>
    rw [hflight] at hle
    exact .left hstopped hleft hle
  | @unheard n ctx shown values hstopped hcurrent hrequests hvalues heq =>
    cases values with
    | nil => cases hevents.symm.trans heq
    | cons v values =>
      obtain ⟨rfl, hrest⟩ := List.cons.inj (hevents.symm.trans heq)
      have hvalues : values.filterMap (·.stop?) = [] := hvalues
      exact .unheard hstopped hcurrent hrequests hvalues hrest
  | heard hstopped hheard =>
    refine .heard hstopped ⟨hheard.current, hheard.requests, hheard.asked, fun v hv => ?_,
      hheard.commanded, fun hnever => ?_⟩
    · exact hheard.told v (by rw [hevents]; exact List.mem_cons_of_mem _ hv)
    · -- Nothing would have been outstanding.
      have hbefore := hheard.waiting hnever
      rw [outstanding, hevents, hawaited] at hbefore
      cases hbefore

/-- The front end, in its `Phase` at a stop, sends another request or receives a value. -/
theorem Account.phase_attended (h : c.Account trace) (hopen : c.dropped = false)
    (hcurrent : c.current = some n) {b : Action} (hstopped : c'.stopped = c.stopped)
    (hsame : c'.current = c.current)
    (hrequests : ∀ q ∈ c'.requests, q ∈ c.requests ∨ Asked (b :: trace) n q)
    (hevents : ∀ v ∈ c'.events, v ∈ c.events)
    (hwaiting : (∀ k, .gaveUp n k ∉ b :: trace) →
      c.outstanding = (c.awaited.bind (·.call?)).toList →
        c'.outstanding = (c'.awaited.bind (·.call?)).toList) : c'.Phase (b :: trace) := by
  have hsub : trace ⊆ b :: trace := List.subset_cons_self _ _
  obtain ⟨⟨ctx, hat⟩, hheard⟩ := h.attended hopen hcurrent
  have hheard' : c'.Heard (b :: trace) n c'.requests none := by
    refine ⟨hsame.trans hcurrent, (List.append_nil _).symm, fun q hq => ?_,
      fun v hv => (hheard.told v (hevents v hv)).mono hsub, by simp, fun hnever => ?_⟩
    · rcases hrequests q hq with hq | hq
      · exact (hheard.asked q hq).mono hsub
      · exact hq
    · exact hwaiting hnever (hheard.waiting fun k hk => hnever k (hsub hk))
  exact .heard (hstopped.trans hat) hheard'

theorem Account.phase_resume (h : c.Account trace) (command : Command) (hopen : c.dropped = false)
    (hcurrent : c.current = some n) :
    Phase (.resumed n command :: trace)
      { c with requests := c.requests ++ [.resume n command], current := none } := by
  have hsub : trace ⊆ .resumed n command :: trace := List.subset_cons_self _ _
  obtain ⟨⟨ctx, hstopped⟩, hheard⟩ := h.attended hopen hcurrent
  refine @Phase.heard _ _ n ctx c.requests (some command) hstopped ⟨rfl, rfl,
    fun q hq => (hheard.asked q hq).mono hsub, fun v hv => (hheard.told v hv).mono hsub,
    fun command' hcommand => ?_, fun hnever => ?_⟩
  · cases hcommand
    exact List.mem_cons_self
  · -- A command is no question.
    rw [← hheard.waiting fun k hk => hnever k (hsub hk), outstanding, List.filterMap_append]
    exact congrArg _ (List.append_nil _)

/-- Every `Step` leads to one of the phases of the front end. -/
theorem Step.phase (hstep : c.Step E a c') (h : c.Account trace) :
    c'.Phase (a.toList ++ trace) := by
  have hphase := h.phase
  have hsub : trace ⊆ a.toList ++ trace := List.subset_append_right _ _
  cases hstep with
  | run | pass => exact hphase.mono hsub rfl rfl rfl rfl rfl id
  | drop => exact hphase.mono hsub rfl rfl rfl rfl rfl fun _ => rfl
  | wait _ hnone => exact hphase.mono hsub rfl rfl rfl rfl (by rw [hnone]; rfl) id
  | timeout hsome => exact hphase.mono hsub rfl rfl rfl rfl (by rw [hsome]; rfl) id
  | stop reason location ctx hstopped hopen =>
    obtain ⟨hcurrent, hrequests, hflight⟩ := h.running hstopped hopen
    exact .unheard rfl hcurrent hrequests hflight rfl
  | evaluate hstopped hrequests => exact h.phase_evaluate _ _ hstopped hrequests
  | abandon _ _ _ hleft => exact .left rfl hleft hphase.length_inFlight_le
  | obey hstopped hrequests =>
    obtain ⟨hcurrent, rfl, rfl, hflight, -⟩ := h.of_resume hstopped hrequests
    exact .running rfl hcurrent rfl hflight
  | hangUp _ _ hleft => exact .left rfl hleft hphase.length_inFlight_le
  | skip hawaited hevents => exact h.phase_skip hawaited hevents
  | receive hawaited hevents =>
    obtain ⟨⟨ctx, hstopped⟩, -, hrequests, rfl⟩ := h.of_stopped hawaited hevents
    exact @Phase.heard _ _ _ ctx [] none hstopped ⟨rfl, hrequests, by simp, by simp, by simp,
      fun _ => by simp [outstanding, hrequests]⟩
  | @ask n e hopen hawaited hcurrent =>
    refine h.phase_attended hopen hcurrent rfl rfl (fun q hq => ?_) (fun v hv => hv)
      fun _ hbefore => ?_
    · rcases List.mem_append.1 hq with hq | hq
      · exact .inl hq
      · exact .inr ⟨_, e, List.mem_singleton.1 hq, List.mem_cons_self⟩
    · rw [hawaited, outstanding] at hbefore
      rw [outstanding, List.filterMap_append, ← List.append_assoc, hbefore]
      rfl
  | @hear n k j result rest hawaited hevents =>
    obtain ⟨hopen, hcurrent⟩ := h.awaiting hawaited
    refine h.phase_attended hopen hcurrent rfl rfl (fun q hq => .inl hq) (fun v hv => ?_)
      fun _ hbefore => ?_
    · rw [hevents]
      exact List.mem_cons_of_mem _ hv
    · rw [hawaited, outstanding, hevents] at hbefore
      exact (List.cons.inj hbefore).2
  | miss hawaited hevents =>
    obtain ⟨-, hcurrent⟩ := h.awaiting hawaited
    obtain ⟨-, hnone, -⟩ := h.of_stopped hawaited hevents
    simp [hnone] at hcurrent
  | giveUp hawaited =>
    obtain ⟨hopen, hcurrent⟩ := h.awaiting hawaited
    refine h.phase_attended hopen hcurrent rfl rfl (fun q hq => .inl hq) (fun v hv => hv)
      fun hnever => ?_
    exact absurd List.mem_cons_self (hnever _)
  | resume command hopen _ hcurrent => exact h.phase_resume command hopen hcurrent

theorem Step.account (hstep : c.Step E a c') (h : c.Account trace) :
    c'.Account (a.toList ++ trace) where
  dropped := hstep.dropped h
  fresh := hstep.fresh h
  finished := hstep.finished h
  sent := hstep.sent h
  answered := hstep.answered h
  resumed := hstep.resumed h
  returned := hstep.returned h
  awaited := hstep.awaited h
  phase := hstep.phase h

theorem Run.account {m : Machine} (h : Run E m trace c) : c.Account trace := by
  induction h with
  | start =>
    refine ⟨?_, ?_, ?_, ?_, ?_, ?_, rfl, ?_, .running rfl rfl rfl rfl⟩ <;> simp
  | step _ hstep ih => exact hstep.account ih

end Channel

end Animator

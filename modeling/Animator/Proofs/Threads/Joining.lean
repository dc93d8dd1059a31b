import Animator.Proofs.Ending
import Animator.Proofs.Threads.Session

/-!
# Joins of a session

A session runs its threads one after the other, each when it is joined. That is one of the ways in
which the threads of a crew can take turns, so everything that is known of crews is known of
sessions.

`outcomes_joined_once` is the result.
-/

namespace Animator

open ThreadEvent

/-! ### Crews in order -/

namespace Crew

variable {hz : Nat} {timeLimit : Option Nat} {reports : List (List ThreadOutcome)}
  {s s' : Scheduler} {joining : Option Join} {fallen lost : List ThreadId} {id : ThreadId}
  {job : Job}
  {batch : List (ThreadId × Job)} {outcomes : List ThreadOutcome}

/-- The threads are joined in the order in which they have been `started`, and each comes to its end
or dies when it is joined. -/
structure Orderly (trace : List ThreadEvent) (c : Crew) : Prop where
  /-- The threads that have been started since the last join. -/
  order : c.collected.map (·.id) ++ (c.batch.map (·.1) ++ c.scheduler.waiting.map (·.1)) =
    survivors trace
  /-- A thread that has come to its end has nothing left to report. -/
  ended : ∀ t ∈ c.scheduler.standings, t.running = false → t.outcome = none

/-- A `Crew` can be like this when its joins have reported some outcomes, the latest first. -/
def Reached (hz : Nat) (timeLimit : Option Nat) (reports : List (List ThreadOutcome)) (c : Crew) :
    Prop :=
  ∃ trace, Run hz timeLimit trace c ∧ ThreadEvent.reports trace = reports ∧ c.Orderly trace

namespace Reached

/-- A step that does not start threads and leaves the queue alone. -/
theorem rest (h : Reached hz timeLimit reports ⟨s, [], joining, fallen⟩) (hs : s.Rests s') :
    Reached hz timeLimit reports ⟨s', [], joining, fallen⟩ := by
  obtain ⟨trace, hrun, hreports, horder, hended⟩ := h
  refine ⟨trace, hrun.step (.rest s' hs), hreports, ?_, ?_⟩
  · change _ ++ (_ ++ s'.waiting.map (·.1)) = _
    rw [hs.waiting]
    exact horder
  · change ∀ t ∈ s'.standings, _
    rw [hs.standings]
    exact hended

/-- Starting a thread is two steps of a `Crew`, with nothing in between. -/
theorem spawn (h : Reached hz timeLimit reports ⟨s, [], joining, fallen⟩)
    (hbusy : Busy ⟨s, [], joining, fallen⟩ id) (name : String) (cpu : Nat)
    (object : Option ObjectRef) (alone : Bool) (startTime : Nat) (job : Job) :
    Reached hz timeLimit reports
      ⟨(s.spawn name cpu object alone startTime job).2, [], joining, fallen⟩ := by
  obtain ⟨trace, hrun, hreports, horder, hended⟩ := h
  have henrol := hrun.step
    (.enrol id name cpu object alone startTime job ⟨hbusy, List.not_mem_nil⟩)
  refine ⟨_, henrol.step (.enqueue [] [] ⟨s.nextId, id, job⟩ rfl), hreports, ?_, ?_⟩
  · have halive : s.nextId ∉ deaths trace := hrun.account.nextId_not_mem
    have hsurvivors : survivors (.started s.nextId name :: trace) =
        survivors trace ++ [s.nextId] := by
      change (ThreadEvent.unjoined trace ++ [s.nextId]).filter (· ∉ deaths trace) = _
      rw [List.filter_append]
      exact congrArg _ (List.filter_eq_self.2 (by simpa using halive))
    change _ ++ (_ ++ (s.waiting ++ [(s.nextId, job)]).map (·.1)) =
      survivors (.started s.nextId name :: trace)
    rw [hsurvivors, ← horder, List.map_append]
    simp only [List.append_assoc]
    rfl
  · intro t ht hrunning
    change t ∈ (s.enrol name cpu object alone startTime).standings at ht
    rw [Scheduler.standings_enrol] at ht
    rcases List.mem_append.1 ht with ht | ht
    · exact hended t ht hrunning
    · rw [List.mem_singleton.1 ht]

theorem moves (h : Reached hz timeLimit reports ⟨s, [], joining, fallen⟩)
    (hbusy : ∀ s', Reached hz timeLimit reports ⟨s', [], joining, fallen⟩ →
      Busy ⟨s', [], joining, fallen⟩ id)
    (hmoves : s.Moves s') : Reached hz timeLimit reports ⟨s', [], joining, fallen⟩ := by
  induction hmoves with
  | refl => exact h
  | tail _ hmove ih =>
    cases hmove with
    | spawn name cpu object alone startTime job =>
      exact ih.spawn (hbusy _ ih) name cpu object alone startTime job
    | rest hs => exact ih.rest hs

section Head

variable (h : Reached hz timeLimit reports
  ⟨s, [], some ⟨(id, job) :: batch, outcomes, lost⟩, fallen⟩)

include h

/-- The thread that is joined next, by the `standings`, has not come to its end, and it has not
died. -/
theorem exists_head :
    id ≠ mainThread ∧ id ∉ fallen ∧
      ∃ t ∈ s.standings, t.id = id ∧ t.running = true ∧ t.outcome = none := by
  obtain ⟨trace, hrun, -, horder, hended⟩ := h
  have hpending : id ∈ pending ⟨s, [], some ⟨(id, job) :: batch, outcomes, lost⟩, fallen⟩ :=
    List.mem_append_right _ (List.mem_append_right _ List.mem_cons_self)
  obtain ⟨hmain, t, ht, hid, -, hlive⟩ := hrun.account.exists_of_pending hpending
  have halive : id ∉ fallen := by
    have hin : id ∈ survivors trace :=
      horder ▸ List.mem_append_right _ (List.mem_append_left _ List.mem_cons_self)
    have hdeaths : fallen = deaths trace := hrun.account.fallen.1
    rw [hdeaths]
    exact of_decide_eq_true (List.mem_filter.1 hin).2
  refine ⟨hmain, halive, t, ht, hid, ?_⟩
  -- Had it come to its end, its outcome would still be there.
  rcases hlive with hlive | ⟨hstopped, r, -, hr⟩
  · exact hlive
  · rw [hended t ht hstopped] at hr
    cases hr

theorem busy_head : Busy ⟨s, [], some ⟨(id, job) :: batch, outcomes, lost⟩, fallen⟩ id := by
  obtain ⟨hmain, halive, t, ht, hid, hrunning, -⟩ := h.exists_head
  exact .inr ⟨hmain, halive, t, ht, hid, hrunning⟩

/-- The thread that is joined next comes to its end, and its `outcome` is taken. -/
theorem collect (outcome : Outcome) :
    ∃ o, (s.finish id outcome).taken id = [o] ∧
      Reached hz timeLimit reports
        ⟨((s.finish id outcome).takeOutcome id).2, [],
          some ⟨batch, outcomes ++ [o], lost⟩, fallen⟩ := by
  have hbusy := h.busy_head
  obtain ⟨hmain, halive, t, ht, rfl, -, -⟩ := h.exists_head
  obtain ⟨trace, hrun, hreports, horder, hended⟩ := h
  have hfinish := hrun.step (.finish t.id outcome hmain ⟨hbusy, List.not_mem_nil⟩)
  have hstandings := s.standings_finish t.id outcome
  have htaken : (s.finish t.id outcome).taken t.id = [⟨t.id, t.name, outcome.settled⟩] := by
    have ht' : { t with running := false, outcome := some outcome.settled } ∈
        (s.finish t.id outcome).standings := by
      rw [hstandings]
      exact List.mem_map.2 ⟨t, ht, if_pos rfl⟩
    exact Scheduler.taken_of_standing hfinish.account.nodup ht' rfl
  have hstopped : ¬Busy ⟨s.finish t.id outcome, [],
      some ⟨(t.id, job) :: batch, outcomes, lost⟩, fallen⟩ t.id := by
    rintro (⟨heq, -⟩ | ⟨-, -, t', ht', hid', hrunning⟩)
    · exact hmain heq
    · change t' ∈ (s.finish t.id outcome).standings at ht'
      rw [hstandings] at ht'
      obtain ⟨t₀, -, rfl⟩ := List.mem_map.1 ht'
      by_cases hsame : t₀.id = t.id
      · rw [if_pos hsame] at hrunning
        cases hrunning
      · rw [if_neg hsame] at hid'
        exact hsame hid'
  have hcollect : Run hz timeLimit (.ended t.id outcome :: trace)
      ⟨((s.finish t.id outcome).takeOutcome t.id).2, [],
        some ⟨batch, outcomes ++ (s.finish t.id outcome).taken t.id,
          lost ++ if t.id ∈ fallen then [t.id] else []⟩, fallen⟩ :=
    hfinish.step (.collect t.id job batch outcomes lost rfl hstopped)
  rw [htaken, if_neg halive, List.append_nil] at hcollect
  refine ⟨_, htaken, _, hcollect, hreports, ?_, ?_⟩
  · have hold : outcomes.map (·.id) ++ (t.id :: batch.map (·.1) ++ s.waiting.map (·.1)) =
        survivors trace := horder
    change (outcomes ++ [(⟨t.id, t.name, outcome.settled⟩ : ThreadOutcome)]).map (·.id) ++
      (batch.map (·.1) ++ s.waiting.map (·.1)) = survivors trace
    rw [← hold, List.map_append, List.append_assoc]
    rfl
  · -- It has ended and nothing is left to report; the others are as they were.
    intro t' ht' hrunning
    change t' ∈ ((s.finish t.id outcome).takeOutcome t.id).2.standings at ht'
    rw [Scheduler.standings_takeOutcome, hstandings, List.map_map] at ht'
    obtain ⟨t₀, ht₀, rfl⟩ := List.mem_map.1 ht'
    by_cases hsame : t₀.id = t.id
    · simp [hsame]
    · simp only [Function.comp_apply, if_neg hsame] at hrunning ⊢
      exact hended t₀ ht₀ hrunning

/-- The thread that is joined next (`takeOutcome`) has died, so it has no outcome that could be
taken. -/
theorem lose (hdead : s.isDead id = true) :
    s.taken id = [] ∧
      Reached hz timeLimit reports
        ⟨(s.takeOutcome id).2, [], some ⟨batch, outcomes, lost ++ [id]⟩, id :: fallen⟩ := by
  have hbusy := h.busy_head
  obtain ⟨hmain, halive, t, ht, rfl, hrunning, hnone⟩ := h.exists_head
  obtain ⟨trace, hrun, hreports, horder, hended⟩ := h
  have htaken := Scheduler.taken_of_none hrun.account.nodup ht hnone
  have hdie := hrun.step (.die t.id s hmain ⟨hbusy, List.not_mem_nil⟩
    ⟨rfl, rfl, rfl, fun _ hdead => hdead⟩ hdead)
  have hgone : ¬Busy ⟨s, [], some ⟨(t.id, job) :: batch, outcomes, lost⟩, t.id :: fallen⟩ t.id := by
    rintro (⟨heq, -⟩ | ⟨-, halive, -⟩)
    · exact hmain heq
    · exact halive List.mem_cons_self
  have hlose : Run hz timeLimit (.died t.id :: trace)
      ⟨(s.takeOutcome t.id).2, [], some ⟨batch, outcomes ++ s.taken t.id,
        lost ++ if t.id ∈ t.id :: fallen then [t.id] else []⟩, t.id :: fallen⟩ :=
    hdie.step (.collect t.id job batch outcomes lost rfl hgone)
  rw [htaken, if_pos List.mem_cons_self, List.append_nil] at hlose
  refine ⟨htaken, _, hlose, hreports, ?_, ?_⟩
  · -- The thread is taken out of the row.
    have hold : outcomes.map (·.id) ++ (t.id :: (batch.map (·.1) ++ s.waiting.map (·.1))) =
        survivors trace := horder
    have hnodup : (outcomes.map (·.id) ++
        (t.id :: (batch.map (·.1) ++ s.waiting.map (·.1)))).Nodup :=
      hold ▸ hrun.account.survivors_sorted.imp Nat.ne_of_lt
    change outcomes.map (·.id) ++ (batch.map (·.1) ++ s.waiting.map (·.1)) = _
    rw [survivors_died, ← hold, List.filter_append, List.filter_cons_of_neg (by simp),
      ← List.filter_append, eq_comm, List.filter_eq_self]
    intro a ha
    refine decide_eq_true ?_
    rintro rfl
    exact (List.nodup_cons.1 (List.nodup_middle.1 hnodup)).1 ha
  · intro t' ht' hstopped
    change t' ∈ (s.takeOutcome t.id).2.standings at ht'
    rw [Scheduler.standings_takeOutcome] at ht'
    obtain ⟨t₀, ht₀, rfl⟩ := List.mem_map.1 ht'
    by_cases hsame : t₀.id = t.id
    · rw [if_pos hsame]
    · rw [if_neg hsame] at hstopped ⊢
      exact hended t₀ ht₀ hstopped

end Head

theorem begin (h : Reached hz timeLimit reports ⟨s, [], none, fallen⟩) :
    Reached hz timeLimit reports ⟨s, [], some ⟨[], [], []⟩, fallen⟩ := by
  obtain ⟨trace, hrun, hreports, horder, hended⟩ := h
  exact ⟨trace, hrun.step (.begin ⟨.inl ⟨rfl, rfl⟩, List.not_mem_nil⟩), hreports, horder, hended⟩

theorem drain (h : Reached hz timeLimit reports ⟨s, [], some ⟨[], outcomes, lost⟩, fallen⟩) :
    Reached hz timeLimit reports
      ⟨s.takeWaiting.2, [], some ⟨s.waiting, outcomes, lost⟩, fallen⟩ := by
  by_cases hwaiting : s.waiting = []
  · rw [hwaiting]
    exact h.rest ⟨rfl, hwaiting.symm, rfl, fun _ hdead => hdead⟩
  · obtain ⟨trace, hrun, hreports, horder, hended⟩ := h
    refine ⟨trace, hrun.step (.drain outcomes lost rfl hwaiting), hreports, ?_, hended⟩
    change _ ++ (s.waiting.map (·.1) ++ []) = _
    rw [List.append_nil]
    exact horder

/-- The queue is found to be empty. The `outcomes` are in the order of their threads already. -/
theorem leave (h : Reached hz timeLimit reports ⟨s, [], some ⟨[], outcomes, lost⟩, fallen⟩)
    (hwaiting : s.waiting = []) :
    Reached hz timeLimit (outcomes :: reports) ⟨s, [], none, fallen⟩ := by
  obtain ⟨trace, hrun, hreports, horder, hended⟩ := h
  have hids : outcomes.map (·.id) = survivors trace := by
    have hall : outcomes.map (·.id) ++ ([] ++ s.waiting.map (·.1)) = survivors trace :=
      horder
    simpa [hwaiting] using hall
  have hsorted : (outcomes.mergeSort fun a b => decide (a.id ≤ b.id)) = outcomes := by
    refine List.mergeSort_of_pairwise ?_
    have hpairwise := hids ▸ hrun.account.survivors_sorted
    exact (List.pairwise_map.1 hpairwise).imp fun hlt => decide_eq_true (Nat.le_of_lt hlt)
  have hleave := hrun.step (.leave outcomes lost rfl hwaiting)
  rw [hsorted] at hleave
  refine ⟨_, hleave, congrArg (outcomes :: ·) hreports, ?_, hended⟩
  change [] ++ ([] ++ s.waiting.map (·.1)) = []
  rw [hwaiting]
  rfl

end Reached

end Crew

/-! ### Sessions -/

section Session

variable {P : Program} {hz : Nat} {timeLimit : Option Nat} {reports : List (List ThreadOutcome)}
  {m m' : Machine} {id : ThreadId} {job : Job} {batch : List (ThreadId × Job)}
  {outcomes os : List ThreadOutcome} {o : Option ThreadOutcome} {rounds : Nat}
  {body : ThreadId → Job → Nat → Eval Value}

/-- What a joined thread does is an evaluation. -/
abbrev Evaluates (P : Program) (body : ThreadId → Job → Nat → Eval Value) : Prop :=
  ∀ id job k, (threadDrift P).effect.Holds (Same (·.From .all)) (body id job k) (body id job k)

/-- The outcome of a thread is taken from the `scheduler`. -/
theorem Engine.takeOutcome_apply (id : ThreadId) (m : Machine) :
    ∃ o : Option ThreadOutcome, o.toList = m.scheduler.taken id ∧
      takeOutcome id m =
        (.ok o, { m with scheduler := (m.scheduler.takeOutcome id).2 }) := by
  let found := (m.scheduler.takeOutcome id).1
  refine ⟨found.map fun result => { id, name := (m.thread id).name, result }, ?_, ?_⟩
  · dsimp only [found, Scheduler.takeOutcome, Scheduler.taken, Machine.thread]
    cases m.scheduler.record? id <;> rfl
  · have htake : Eval.schedule (·.takeOutcome id) m =
        (.ok found, { m with scheduler := (m.scheduler.takeOutcome id).2 }) := rfl
    rw [takeOutcome, Eval.thread, reads_bind, bind_of_ok htake]
    rfl

namespace Crew.Reached

variable {fallen lost : List ThreadId}

/-- Joining a thread, which may start others before it comes to its end. -/
theorem joinThread (hbody : Evaluates P body)
    (h : Reached hz timeLimit reports
      ⟨m.scheduler, [], some ⟨(id, job) :: batch, outcomes, lost⟩, fallen⟩)
    (hrun : Engine.joinThread rounds body id job m = (.ok o, m')) :
    ∃ lost' fallen', Reached hz timeLimit reports
      ⟨m'.scheduler, [], some ⟨batch, outcomes ++ o.toList, lost'⟩, fallen'⟩ := by
  obtain ⟨result, m₁, hresult, hrun⟩ := exists_of_bind_eq_ok hrun
  have hmoves : m.scheduler.Moves m₁.scheduler := by
    have hholds : (threadDrift P).effect.Holds Eq
        ((Engine.runThread rounds id job.timing (body id job)).outcomeOn id)
        ((Engine.runThread rounds id job.timing (body id job)).outcomeOn id) :=
      Effect.holds_outcomeOn id (Effect.holds_runThread (hbody id job))
    have hall := Drift.rel hholds m trivial
    rw [hresult] at hall
    exact hall.moves
  have hmoved := h.moves (fun s' hs' => hs'.busy_head) hmoves
  cases result with
  | none =>
    obtain ⟨htaken, hreached⟩ := hmoved.lose (isDead_of_outcomeOn hresult)
    obtain ⟨o', ho', hrun'⟩ := Engine.takeOutcome_apply id m₁
    cases hrun'.symm.trans hrun
    rw [ho', htaken, List.append_nil]
    exact ⟨_, _, hreached⟩
  | some result =>
    obtain ⟨taken, htaken, hreached⟩ := hmoved.collect result
    obtain ⟨o', ho', hrun'⟩ := Engine.takeOutcome_apply id (m₁.finish id result)
    have hfinish : Eval.change (·.finish id result) m₁ = (.ok (), m₁.finish id result) := rfl
    cases (hrun'.symm.trans ((bind_of_ok hfinish).symm.trans hrun))
    rw [ho', show (m₁.finish id result).scheduler = m₁.scheduler.finish id result from rfl, htaken]
    exact ⟨_, _, hreached⟩

theorem joinThreads (hbody : Evaluates P body)
    (h : Reached hz timeLimit reports ⟨m.scheduler, [], some ⟨batch, outcomes, lost⟩, fallen⟩)
    (hrun : Engine.joinThreads rounds body batch m = (.ok os, m')) :
    ∃ lost' fallen', Reached hz timeLimit reports
      ⟨m'.scheduler, [], some ⟨[], outcomes ++ os, lost'⟩, fallen'⟩ := by
  induction batch generalizing m outcomes os lost fallen with
  | nil =>
    cases hrun
    rw [List.append_nil]
    exact ⟨lost, fallen, h⟩
  | cons first rest ih =>
    obtain ⟨o, m₁, hfirst, hrun⟩ := exists_of_bind_eq_ok hrun
    obtain ⟨os', m₂, hrest, hrun⟩ := exists_of_bind_eq_ok hrun
    cases hrun
    obtain ⟨lost₁, fallen₁, h₁⟩ := h.joinThread hbody hfirst
    have hreached := ih h₁ hrest
    rw [List.append_assoc] at hreached
    exact hreached

/-- Joining goes on until nobody waits. -/
theorem joinWaiting (hbody : Evaluates P body) {n : Nat}
    (h : Reached hz timeLimit reports ⟨m.scheduler, [], some ⟨[], outcomes, lost⟩, fallen⟩)
    (hrun : Engine.joinWaiting rounds body n m = (.ok os, m')) :
    (∃ lost' fallen', Reached hz timeLimit reports
      ⟨m'.scheduler, [], some ⟨[], outcomes ++ os, lost'⟩, fallen'⟩) ∧
      m'.scheduler.waiting = [] := by
  induction n generalizing m outcomes os lost fallen with
  | zero => cases hrun
  | succ n ih =>
    have hdrain := h.drain
    obtain ⟨waiting, m₁, htake, hrun⟩ := exists_of_bind_eq_ok hrun
    cases htake
    cases hwaiting : m.scheduler.waiting with
    | nil =>
      rw [hwaiting] at hdrain hrun
      cases hrun
      rw [List.append_nil]
      exact ⟨⟨lost, fallen, hdrain⟩, rfl⟩
    | cons first rest =>
      rw [hwaiting] at hdrain hrun
      obtain ⟨os₁, m₂, hthreads, hrun⟩ := exists_of_bind_eq_ok hrun
      obtain ⟨os₂, m₃, hlater, hrun⟩ := exists_of_bind_eq_ok hrun
      cases hrun
      -- The threads that were started meanwhile are in the queue now.
      obtain ⟨lost₁, fallen₁, h₁⟩ := hdrain.joinThreads hbody hthreads
      have hall := ih h₁ hlater
      rw [List.append_assoc] at hall
      exact hall

theorem joinAll {bound : Nat} (h : Reached hz timeLimit reports ⟨m.scheduler, [], none, fallen⟩)
    (hrun : (P.engine bound).joinAll m = (.ok os, m')) :
    (∃ fallen', Reached hz timeLimit (os :: reports) ⟨m'.scheduler, [], none, fallen'⟩) ∧
      m'.scheduler.waiting = [] := by
  have L := (threadDrift P).leaves Origin.closed_all bound
  have hbody : Evaluates P fun id job _ => (P.engine bound).activate id job.body :=
    fun id job _ => Effect.holds_activate L trivial job.body.from_all
  obtain ⟨⟨lost, fallen', hreached⟩, hwaiting⟩ := h.begin.joinWaiting hbody hrun
  exact ⟨⟨fallen', hreached.leave hwaiting⟩, hwaiting⟩

end Crew.Reached

/-! ### Joins that return -/

namespace Ends

theorem joinThread :
    EndsBy (· = .exhausted) (Engine.joinThread rounds body id job) := by
  have htake : EndsBy (· = .exhausted) (Engine.takeOutcome id) :=
    .next (.reads fun _ _ => trivial) fun thread => .next (.act fun _ => trivial) fun _ =>
      .pure trivial
  refine .next (.outcomeOn rfl) fun result => ?_
  cases result with
  | none => exact htake
  | some result => exact .next (.change trivial) fun _ => htake

theorem joinThreads :
    EndsBy (· = .exhausted) (Engine.joinThreads rounds body batch) := by
  induction batch with
  | nil => exact .pure trivial
  | cons first rest ih => exact .next joinThread fun _ => .next ih fun _ => .pure trivial

/-- A join (`joinWaiting`) gives a result, unless it is cut off. -/
theorem joinWaiting (n : Nat) :
    EndsBy (· = .exhausted) (Engine.joinWaiting rounds body n) := by
  induction n with
  | zero => exact .throw rfl
  | succ n ih =>
    refine .next (.act fun _ => trivial) fun waiting => ?_
    cases waiting with
    | nil => exact .pure trivial
    | cons first rest => exact .next joinThreads fun _ => .next ih fun _ => .pure trivial

end Ends

/-- The machines of sessions, with what their joins have reported, the latest first. -/
inductive Machine.Hosted (P : Program) : List (List ThreadOutcome) → Machine → Prop where
  /-- The program is initialised. The heap may hold cells and objects already. -/
  | create (heap : Heap) (kept : List Value) (bound : Nat) :
    Hosted P [] ((P.engine bound).initialise { Machine.initial P heap with kept }).2
  /-- Something is evaluated, with any result. -/
  | run {reports : List (List ThreadOutcome)} {m : Machine} (task : Task) (bound : Nat)
      (h : Hosted P reports m) : Hosted P reports (task.run (P.engine bound) m).2
  | join {reports : List (List ThreadOutcome)} {os : List ThreadOutcome} {m m' : Machine}
      (bound : Nat) (h : Hosted P reports m) (hjoin : (P.engine bound).joinAll m = (.ok os, m')) :
    Hosted P (os :: reports) m'
  /-- Anything else happens: the debugger is set up, an interrupt is requested, or cells and objects
  are brought from outside. -/
  | change {reports : List (List ThreadOutcome)} {m m' : Machine} (h : Hosted P reports m)
      (hrests : m.scheduler.Rests m'.scheduler) : Hosted P reports m'

/-- The scheduler of a `Hosted` machine is that of a `Crew` that takes steps. -/
theorem Machine.Hosted.reached (h : Hosted P reports m) :
    ∃ fallen, Crew.Reached P.settings.defaultHz P.settings.timeLimit reports
      ⟨m.scheduler, [], none, fallen⟩ := by
  -- The main thread does not wait for anybody, so it is busy.
  have hbusy : ∀ (s' : Scheduler) (fallen : List ThreadId),
      Crew.Busy ⟨s', [], none, fallen⟩ mainThread :=
    fun _ _ => .inl ⟨rfl, rfl⟩
  induction h with
  | create heap kept bound =>
    have hproceeds := Drift.rel
      (Effect.holds_initialise ((threadDrift P).leaves Origin.closed_all bound) P.model.from_all)
      { Machine.initial P heap with kept } trivial
    refine ⟨[], Crew.Reached.moves ⟨[], .start, rfl, rfl, fun t ht hrunning => ?_⟩
      (fun s' _ => hbusy s' _) hproceeds.moves⟩
    rw [List.mem_singleton.1 (show t ∈ [_] from ht)]
    rfl
  | @run reports m task bound h ih =>
    obtain ⟨fallen, hreached⟩ := ih
    have hproceeds := Drift.rel
      (Effect.holds_task ((threadDrift P).leaves Origin.closed_all bound) trivial task.from_all) m
      trivial
    exact ⟨fallen, hreached.moves (fun s' _ => hbusy s' _) hproceeds.moves⟩
  | join bound h hjoin ih =>
    obtain ⟨fallen, hreached⟩ := ih
    exact (hreached.joinAll hjoin).1
  | change h hrests ih => exact ih.imp fun _ hreached => hreached.rest hrests

/-- What is known of the threads of a session, given those that have `died`. -/
structure Crew.Census (reports : List (List ThreadOutcome)) (s : Scheduler) (dead : List ThreadId) :
    Prop where
  /-- Threads are known by their numbers, which are given out one after the other. -/
  ids : s.standings.map (·.id) = mainThread :: List.range' 2 (s.nextId - 2)
  /-- Those that have not died have been `reported` or are in the queue. -/
  reported : reports.reverse.flatten.map (·.id) ++ s.waiting.map (·.1) =
    (List.range' 2 (s.nextId - 2)).filter (· ∉ dead)
  /-- Whoever has died counts as `running` and has nothing to report. -/
  dead : ∀ id ∈ dead, s.isDead id = true ∧
    ∃ t ∈ s.standings, t.id = id ∧ t.running = true ∧ t.outcome = none

/-- Between joins every thread is in the `Census`. -/
theorem Crew.Reached.census {s : Scheduler} {fallen : List ThreadId}
    (h : Reached hz timeLimit reports ⟨s, [], none, fallen⟩) : Census reports s fallen := by
  obtain ⟨trace, hrun, rfl, horder, -⟩ := h
  have hwaiting : s.waiting.map (·.1) = survivors trace := horder
  obtain ⟨hnext, hstarts⟩ := hrun.account.numbers
  have hdeaths : fallen = deaths trace := hrun.account.fallen.1
  have hlength : s.nextId - 2 = (starts trace).length := by
    rw [show s.nextId = _ from hnext, Nat.add_sub_cancel_left]
  refine ⟨?_, ?_, fun id hid => ?_⟩
  · rw [hlength, ← hstarts]
    exact hrun.account.ids
  · rw [hwaiting, hrun.reports_append, hlength, ← hstarts, hdeaths]
  · obtain ⟨hstarted, hdead⟩ := hrun.account.fallen.2 id hid
    have hids : id ∈ s.standings.map (·.id) := hrun.account.ids ▸ List.mem_cons_of_mem _ hstarted
    obtain ⟨t, ht, rfl⟩ := List.mem_map.1 hids
    have hrunning : t.running = true := hrun.account.running t ht hid
    have hmain : t.id ≠ mainThread :=
      Nat.ne_of_gt ((List.pairwise_cons.1 hrun.account.sorted).1 t.id hstarted)
    refine ⟨hdead, t, ht, rfl, hrunning, ?_⟩
    rcases (hrun.account.standing t ht hmain).2 with ⟨-, hlive⟩ | ⟨-, hnone, -⟩
    · rcases hlive with ⟨-, hnone⟩ | ⟨hstopped, -⟩
      · exact hnone
      · exact absurd (hstopped.symm.trans hrunning) Bool.false_ne_true
    · exact hnone

theorem Crew.Reached.allJoined {s : Scheduler} {fallen : List ThreadId}
    (h : Reached hz timeLimit reports ⟨s, [], none, fallen⟩) (hwaiting : s.waiting = []) :
    s.AllJoined fallen := by
  obtain ⟨trace, hrun, -⟩ := h
  have hdeaths : fallen = deaths trace := hrun.account.fallen.1
  rw [hdeaths]
  exact hrun.account.allJoined (by simp [pending, Crew.batch, hwaiting])

end Session

/-- Every outcome of a thread is `joined` exactly once, and a thread that has died has none. Threads
may take turns in any way: a join `reports` the threads that were started since the one before it
returned and have not died, each once, in the order of their numbers. It leaves no outcome behind,
and no thread running but those that have died. A session is a run of that kind, and joining its
threads gives a result unless it does not come to an end. -/
theorem outcomes_joined_once (P : Program) :
    (∀ hz timeLimit trace c, Crew.Run hz timeLimit trace c →
      (∀ later os earlier, trace = later ++ .joined os :: earlier → Crew.Exact earlier os) ∧
      (∀ later os between id name earlier,
        trace = later ++ .joined os :: (between ++ .started id name :: earlier) →
        (∀ e ∈ between, e.IsStep) →
          (os.map (·.id)).count id =
              (if id ∈ deaths (between ++ .started id name :: earlier) then 0 else 1) ∧
            ∀ os', .joined os' ∈ later ∨ .joined os' ∈ earlier → id ∉ os'.map (·.id)) ∧
      ∀ os earlier, trace = .joined os :: earlier →
        c.scheduler.AllJoined (deaths earlier)) ∧
    ∀ reports m, Machine.Hosted P reports m →
      (∃ trace c, Crew.Run P.settings.defaultHz P.settings.timeLimit trace c ∧
        c.scheduler = m.scheduler ∧ ThreadEvent.reports trace = reports ∧
        Crew.Census reports m.scheduler (deaths trace)) ∧
      ∀ bound,
        (∃ os m' dead, (P.engine bound).joinAll m = (.ok os, m') ∧
          Crew.Census (os :: reports) m'.scheduler dead ∧
          (os.map (·.id)).Pairwise (· < ·) ∧ m'.scheduler.AllJoined dead) ∨
        ∃ m', (P.engine bound).joinAll m = (.error .exhausted, m') := by
  refine ⟨fun hz timeLimit trace c h => ⟨?_, ?_, ?_⟩, fun reports m h => ?_⟩
  · exact fun later os earlier htrace => h.joined htrace
  · exact fun later os between id name earlier htrace hbetween => h.joined_once htrace hbetween
  · rintro os earlier rfl
    exact h.allJoined
  · obtain ⟨fallen, hreached⟩ := h.reached
    refine ⟨?_, fun bound => ?_⟩
    · have hcensus := hreached.census
      obtain ⟨trace, hrun, hreports, -⟩ := hreached
      have hdeaths : fallen = deaths trace := hrun.account.fallen.1
      exact ⟨trace, _, hrun, rfl, hreports, hdeaths ▸ hcensus⟩
    · rcases hjoin : (P.engine bound).joinAll m with ⟨halt | os, m'⟩
      · have hends : halt = .exhausted := (Ends.joinWaiting _).halt hjoin
        exact .inr ⟨m', by rw [hends]⟩
      · obtain ⟨⟨fallen', hreached'⟩, hwaiting⟩ := hreached.joinAll hjoin
        refine .inl ⟨os, m', fallen', rfl, hreached'.census, ?_, hreached'.allJoined hwaiting⟩
        -- The last report is a part of the row of all numbers.
        have hall := hreached'.census.reported
        rw [hwaiting, List.map_nil, List.append_nil, List.reverse_cons, List.flatten_append,
          List.flatten_singleton, List.map_append] at hall
        have hsorted : (List.range' 2 (m'.scheduler.nextId - 2)).Pairwise (· < ·) :=
          List.pairwise_lt_range' _
        exact hsorted.sublist ((hall ▸ List.sublist_append_right _ _).trans List.filter_sublist)

/-- A class whose objects do something when they are started. -/
def runnerClass (name : String) (line : Nat) (body : StmtKind) : ClassDef :=
  { name, location := .onLine line, instanceVars := [], values := [], functions := []
    operations := [], invariants := [], thread := some (.plain (.onLine line body)) }

def startNew (className : String) (line : Nat) : StmtKind :=
  .start (.onLine line (.new className []))

/-- A runner that starts another one. -/
def relayProgram : Program :=
  { model := { classes := [runnerClass "First" 1 (startNew "Second" 1),
    runnerClass "Second" 2 .skip] } }

def relayMachine : Machine :=
  ((Task.entry (.execute (.onLine 3 (startNew "First" 3)))).run (relayProgram.engine 20)
    ((relayProgram.engine 20).initialise (Machine.initial relayProgram {})).2).2

/-- In the `relayMachine`, the thread that is started while another one is joined is reported by the
same join, and the next join has nothing to report. -/
theorem outcomes_joined_once_relay :
    relayMachine.Hosted relayProgram [] ∧ relayMachine.scheduler.waiting.map (·.1) = [2] ∧
      ∃ os m dead, (relayProgram.engine 20).joinAll relayMachine = (.ok os, m) ∧
        m.Hosted relayProgram [os] ∧ os.map (·.id) = [2, 3] ∧ m.scheduler.AllJoined dead ∧
        ((relayProgram.engine 20).joinAll m).1.toOption.map (·.length) = some 0 := by
  have hhosted : relayMachine.Hosted relayProgram [] := .run _ 20 (.create {} [] 20)
  have hjoined : ((relayProgram.engine 20).joinAll relayMachine).1.toOption.map (·.map (·.id)) =
        some [2, 3] ∧
      ((relayProgram.engine 20).joinAll
        ((relayProgram.engine 20).joinAll relayMachine).2).1.toOption.map (·.length) = some 0 := by
    decide +kernel
  obtain ⟨-, hsessions⟩ := outcomes_joined_once relayProgram
  obtain ⟨-, hjoins⟩ := hsessions [] relayMachine hhosted
  refine ⟨hhosted, by decide +kernel, ?_⟩
  rcases hjoins 20 with ⟨os, m, dead, hjoin, -, -, hover⟩ | ⟨m, hcut⟩
  · rw [hjoin] at hjoined
    exact ⟨os, m, dead, hjoin, hhosted.join 20 hjoin, Option.some.inj hjoined.1, hover, hjoined.2⟩
  · rw [hcut] at hjoined
    cases hjoined.1

/-- A runner that waits twice for half the time that a clock can count. -/
def lastingProgram : Program :=
  let wait : Stmt := .onLine 2
      (.duration (.onLine 2 (.literal (.int Word.maxInt))) (.onLine 2 .skip))
  { model := { classes := [runnerClass "First" 1 (.block [] [wait, wait])] } }

/-- So it is not true that a join leaves no thread `running`. -/
theorem not_every_thread_joined :
    ¬∀ (P : Program) (reports : List (List ThreadOutcome)) (m : Machine) (bound : Nat)
        (os : List ThreadOutcome) (m' : Machine), Machine.Hosted P reports m →
      (P.engine bound).joinAll m = (.ok os, m') →
      ∀ t ∈ m'.scheduler.standings, t.id ≠ mainThread →
        t.running = false ∧ t.id ∈ ((os :: reports).flatten.map (·.id)) := by
  intro h
  let E := lastingProgram.engine 20
  let m := ((Task.entry (.execute (.onLine 3 (startNew "First" 3)))).run E
    (E.initialise (Machine.initial lastingProgram {})).2).2
  have hjoined : (E.joinAll m).1.toOption.map (·.length) = some 0 ∧
      (E.joinAll m).2.scheduler.standings.map (fun t => (t.id, t.running)) =
        [(mainThread, true), (2, true)] := by
    decide +kernel
  rcases hjoin : E.joinAll m with ⟨halt | os, m'⟩
  · rw [hjoin] at hjoined
    cases hjoined.1
  · rw [hjoin] at hjoined
    have hmem : ((2 : ThreadId), true) ∈ m'.scheduler.standings.map (fun t =>
        (t.id, t.running)) := by
      rw [show _ = _ from hjoined.2]
      exact List.mem_cons_of_mem _ List.mem_cons_self
    obtain ⟨t, ht, hid⟩ := List.mem_map.1 hmem
    obtain ⟨hid, hrunning⟩ := Prod.mk.inj hid
    have hstopped := (h lastingProgram [] m 20 os m' (.run _ 20 (.create {} [] 20)) hjoin t ht
      (hid ▸ by decide)).1
    exact Bool.false_ne_true (hstopped.symm.trans hrunning)

end Animator

import Animator.Eval.Join
import Animator.Eval.Entry
import Animator.Proofs.Effect.Basic
import Mathlib.Data.List.Nodup
import Mathlib.Data.List.Sort
import Mathlib.Logic.Relation

/-!
# Threads that are joined

A `Crew` is a scheduler whose threads take turns in any order. A thread starts another one in two
steps, between which anything can happen: the new thread is added and may run at once, and later it
is put into the queue of threads that wait to be joined. Joining goes in steps as well: the queue is
emptied, the threads in it are waited for one by one, and their outcomes are taken, until the queue
is found to be empty.

A thread comes to its end, or it dies: then it has no outcome, and it goes on to count as running.

What happens is written down, the latest first (`ThreadEvent`). `Crew.Account` says where the
threads are that have been started since the last join: on their way into the queue, in the queue,
among those that are waited for, found dead, or reported. Every step keeps it (`Crew.Step.account`).
-/

namespace Animator

/-! ### Events -/

inductive ThreadEvent where
  | started (id : ThreadId) (name : String)
  /-- A thread comes to its end. -/
  | ended (id : ThreadId) (outcome : Outcome)
  | died (id : ThreadId)
  /-- A join is over, with some `outcomes`. -/
  | joined (outcomes : List ThreadOutcome)

namespace ThreadEvent

def starts : List ThreadEvent → List ThreadId
  | [] => []
  | .started id _ :: earlier => starts earlier ++ [id]
  | .ended _ _ :: earlier | .died _ :: earlier | .joined _ :: earlier => starts earlier

def unjoined : List ThreadEvent → List ThreadId
  | [] => []
  | .started id _ :: earlier => unjoined earlier ++ [id]
  | .ended _ _ :: earlier | .died _ :: earlier => unjoined earlier
  | .joined _ :: _ => []

def deaths : List ThreadEvent → List ThreadId
  | [] => []
  | .died id :: earlier => id :: deaths earlier
  | .started _ _ :: earlier | .ended _ _ :: earlier | .joined _ :: earlier => deaths earlier

/-- The threads that have been started since the last join and have not died. -/
def survivors (trace : List ThreadEvent) : List ThreadId :=
  (unjoined trace).filter (· ∉ deaths trace)

/-- What the joins have reported, the latest first. -/
def reports : List ThreadEvent → List (List ThreadOutcome)
  | [] => []
  | .joined outcomes :: earlier => outcomes :: reports earlier
  | .started _ _ :: earlier | .ended _ _ :: earlier | .died _ :: earlier => reports earlier

def IsStep : ThreadEvent → Prop
  | .joined _ => False
  | _ => True

variable {trace later earlier : List ThreadEvent} {id : ThreadId}

theorem reports_append : reports (later ++ earlier) = reports later ++ reports earlier := by
  induction later with
  | nil => rfl
  | cons e rest ih => cases e <;> simp [reports, ih]

theorem mem_reports {outcomes : List ThreadOutcome} (h : .joined outcomes ∈ trace) :
    outcomes ∈ reports trace := by
  obtain ⟨later, earlier, rfl⟩ := List.append_of_mem h
  rw [reports_append]
  exact List.mem_append_right _ List.mem_cons_self

theorem unjoined_sublist (trace : List ThreadEvent) : (unjoined trace).Sublist (starts trace) := by
  induction trace with
  | nil => exact .refl _
  | cons e rest ih =>
    cases e with
    | started id name => exact ih.append (.refl [id])
    | ended | died => exact ih
    | joined outcomes => exact List.nil_sublist _

theorem filter_died (id : ThreadId) (ids : List ThreadId) :
    ids.filter (· ∉ id :: deaths trace) = (ids.filter (· ∉ deaths trace)).filter (· ≠ id) := by
  rw [List.filter_filter]
  refine List.filter_congr fun a _ => ?_
  simp

theorem survivors_died (id : ThreadId) (trace : List ThreadEvent) :
    survivors (.died id :: trace) = (survivors trace).filter (· ≠ id) :=
  filter_died id (unjoined trace)

theorem mem_deaths_append (h : id ∈ deaths earlier) : id ∈ deaths (later ++ earlier) := by
  induction later with
  | nil => exact h
  | cons e rest ih =>
    cases e with
    | died id' => exact List.mem_cons_of_mem _ ih
    | started | ended | joined => exact ih

theorem mem_unjoined_append (hsteps : ∀ e ∈ later, e.IsStep) (h : id ∈ unjoined earlier) :
    id ∈ unjoined (later ++ earlier) := by
  induction later with
  | nil => exact h
  | cons e rest ih =>
    obtain ⟨he, hrest⟩ := List.forall_mem_cons.1 hsteps
    cases e with
    | started id' name => exact List.mem_append_left _ (ih hrest)
    | ended | died => exact ih hrest
    | joined outcomes => exact he.elim

end ThreadEvent

/-! ### Schedulers -/

/-- How the end of a thread is recorded. Being `stopped` is an ordinary end. -/
def Outcome.settled : Outcome → Outcome
  | .error (.stopped _) => .ok .void
  | outcome => outcome

/-- What matters about a thread here. -/
structure Standing where
  id : ThreadId
  name : String
  running : Bool := true
  /-- Its `outcome`, if it has one that has not been taken. -/
  outcome : Option Outcome := none

def ThreadRecord.standing (r : ThreadRecord) : Standing :=
  ⟨r.thread.id, r.thread.name, r.running, r.outcome⟩

namespace Scheduler

variable {s s' : Scheduler} {id : ThreadId}

def standings (s : Scheduler) : List Standing :=
  s.records.map (·.standing)

def enrol (s : Scheduler) (name : String) (cpu : Nat) (object : Option ObjectRef) (alone : Bool)
    (startTime : Nat) : Scheduler :=
  { s with
    nextId := s.nextId + 1
    records := s.records ++
      [{ thread := { id := s.nextId, name, cpu }, object, alone, clock := startTime }] }

def enqueue (s : Scheduler) (id : ThreadId) (job : Job) : Scheduler :=
  { s with waiting := s.waiting ++ [(id, job)] }

theorem standings_enrol {name : String} {cpu : Nat} {object : Option ObjectRef} {alone : Bool}
    {startTime : Nat} :
    (s.enrol name cpu object alone startTime).standings =
      s.standings ++ [{ id := s.nextId, name }] := by
  simp [standings, enrol, ThreadRecord.standing]

theorem standings_modify {f : ThreadRecord → ThreadRecord} {g : Standing → Standing}
    (hfg : ∀ r, (f r).standing = g r.standing) :
    (s.modify id f).standings = s.standings.map fun t => if t.id = id then g t else t := by
  unfold standings modify
  rw [List.map_map, List.map_map]
  refine List.map_congr_left fun r _ => ?_
  have hid : r.standing.id = r.thread.id := rfl
  by_cases h : r.thread.id = id <;> simp [h, hid, hfg]

theorem map_id_update {g : Standing → Standing} (hg : ∀ t, (g t).id = t.id) (ts : List Standing) :
    (ts.map fun t => if t.id = id then g t else t).map (·.id) = ts.map (·.id) := by
  rw [List.map_map]
  refine List.map_congr_left fun t _ => ?_
  simp only [Function.comp_apply]
  split
  · exact hg t
  · rfl

theorem standings_finish (id : ThreadId) (outcome : Outcome) :
    (s.finish id outcome).standings = s.standings.map fun t =>
      if t.id = id then { t with running := false, outcome := some outcome.settled } else t := by
  refine standings_modify (g := fun t =>
    { t with running := false, outcome := some outcome.settled }) fun r => ?_
  rcases outcome with halt | v
  · cases halt <;> rfl
  · rfl

theorem standings_takeOutcome (id : ThreadId) :
    (s.takeOutcome id).2.standings =
      s.standings.map fun t => if t.id = id then { t with outcome := none } else t :=
  standings_modify fun _ => rfl

/-- Nothing happens to the `standings` and the queue, and who is dead remains so. -/
structure Rests (s s' : Scheduler) : Prop where
  nextId : s'.nextId = s.nextId
  waiting : s'.waiting = s.waiting
  standings : s'.standings = s.standings
  isDead : ∀ id, s.isDead id = true → s'.isDead id = true

/-- Nothing is left to report. Of the threads but the main one those are `running` that have died,
and the others have come to their ends. -/
def AllJoined (s : Scheduler) (dead : List ThreadId) : Prop :=
  s.waiting = [] ∧ ∀ t ∈ s.standings, t.id ≠ mainThread →
    t.outcome = none ∧ (t.running = true ↔ t.id ∈ dead ∧ s.isDead t.id = true)

/-- The `outcome` of a thread that is taken, with the name of the thread. -/
def taken (s : Scheduler) (id : ThreadId) : List ThreadOutcome :=
  ((s.record? id).bind fun r => r.outcome.map fun result =>
    { id, name := r.thread.name, result }).toList

theorem taken_of_standing {t : Standing} (hids : (s.standings.map (·.id)).Nodup)
    (ht : t ∈ s.standings) {result : Outcome} (houtcome : t.outcome = some result) :
    s.taken t.id = [{ id := t.id, name := t.name, result }] := by
  obtain ⟨r, hr, rfl⟩ := List.mem_map.1 ht
  have hfound : s.record? r.thread.id = some r := by
    obtain ⟨found, hfound⟩ : ∃ found, s.record? r.thread.id = some found := by
      refine Option.isSome_iff_exists.1 (List.find?_isSome.2 ⟨r, hr, ?_⟩)
      simp
    have hid : found.thread.id = r.thread.id := by simpa using List.find?_some hfound
    have hmem := List.mem_of_find?_eq_some hfound
    have hinj : (s.records.map (·.thread.id)).Nodup := by
      simpa [standings, Function.comp_def, ThreadRecord.standing] using hids
    rw [hfound, List.inj_on_of_nodup_map hinj hmem hr hid]
  have hresult : r.outcome = some result := houtcome
  simp [taken, hfound, hresult, ThreadRecord.standing]

theorem taken_of_none {t : Standing} (hids : (s.standings.map (·.id)).Nodup)
    (ht : t ∈ s.standings) (houtcome : t.outcome = none) : s.taken t.id = [] := by
  rcases hfound : s.record? t.id with _ | r
  · simp [taken, hfound]
  · have hid : r.thread.id = t.id := by simpa using List.find?_some hfound
    have hr : r.standing ∈ s.standings := List.mem_map_of_mem (List.mem_of_find?_eq_some hfound)
    have hsame : r.standing = t := List.inj_on_of_nodup_map hids hr ht hid
    have hnone : r.outcome = none := (congrArg Standing.outcome hsame).trans houtcome
    simp [taken, hfound, hnone]

/-- A change of one thread brings nobody back to life (`isDead`). -/
theorem isDead_modify {f : ThreadRecord → ThreadRecord} (hid : ∀ r, (f r).thread.id = r.thread.id)
    (hf : ∀ r, r.dead = true → (f r).dead = true) {id' : ThreadId} (h : s.isDead id' = true) :
    (s.modify id f).isDead id' = true := by
  obtain ⟨r, hr, hdead⟩ := (Option.any_eq_true _ _).1 h
  rw [isDead, record?_modify hid, hr, Option.map_some, Option.any_some]
  split
  · exact hf r hdead
  · exact hdead

theorem isDead_enrol {name : String} {cpu : Nat} {object : Option ObjectRef} {alone : Bool}
    {startTime : Nat} {id' : ThreadId} (h : s.isDead id' = true) :
    (s.enrol name cpu object alone startTime).isDead id' = true := by
  obtain ⟨r, hr, hdead⟩ := (Option.any_eq_true _ _).1 h
  have hr' : (s.enrol name cpu object alone startTime).record? id' = some r := by
    unfold record? enrol at *
    rw [List.find?_append, hr, Option.some_or]
  rw [isDead, hr']
  exact hdead

theorem isDead_finish (outcome : Outcome) {id' : ThreadId} (h : s.isDead id' = true) :
    (s.finish id outcome).isDead id' = true := by
  unfold finish
  refine isDead_modify ?_ ?_ h
  · exact fun _ => rfl
  · exact fun _ hdead => hdead

theorem isDead_takeOutcome {id' : ThreadId} (h : s.isDead id' = true) :
    (s.takeOutcome id).2.isDead id' = true := by
  unfold takeOutcome
  refine isDead_modify ?_ ?_ h
  · exact fun _ => rfl
  · exact fun _ hdead => hdead

end Scheduler

/-! ### Crews -/

/-- A thread on its way into the queue. -/
structure Starting where
  child : ThreadId
  host : ThreadId
  job : Job

/-- A `Join` that is not over. -/
structure Join where
  batch : List (ThreadId × Job)
  outcomes : List ThreadOutcome
  /-- The threads that were found dead. -/
  lost : List ThreadId := []

/-- A `scheduler` whose threads take turns. -/
structure Crew where
  scheduler : Scheduler
  /-- The threads on their way into the queue. -/
  starting : List Starting := []
  /-- The `Join` that the main thread is in. -/
  joining : Option Join := none
  /-- The threads that have died. -/
  fallen : List ThreadId := []

namespace Crew

open ThreadEvent

def batch (c : Crew) : List (ThreadId × Job) :=
  (c.joining.map (·.batch)).getD []

def collected (c : Crew) : List ThreadOutcome :=
  (c.joining.map (·.outcomes)).getD []

def lost (c : Crew) : List ThreadId :=
  (c.joining.map (·.lost)).getD []

def pending (c : Crew) : List ThreadId :=
  c.starting.map (·.child) ++ (c.scheduler.waiting.map (·.1) ++ c.batch.map (·.1))

/-- The thread has not come to its end nor died; and it is not waiting for others, if it is the main
thread. -/
def Busy (c : Crew) (id : ThreadId) : Prop :=
  (id = mainThread ∧ c.joining = none) ∨
    id ≠ mainThread ∧ id ∉ c.fallen ∧ ∃ t ∈ c.scheduler.standings, t.id = id ∧ t.running = true

/-- The thread can do something next: it is not in the middle of `starting` another one. -/
def Acts (c : Crew) (id : ThreadId) : Prop :=
  c.Busy id ∧ id ∉ c.starting.map (·.host)

/-- One step of one thread, and what it adds to the events. -/
inductive Step (c : Crew) : Option ThreadEvent → Crew → Prop where
  | enrol (host : ThreadId) (name : String) (cpu : Nat) (object : Option ObjectRef) (alone : Bool)
      (startTime : Nat) (job : Job) (hhost : c.Acts host) :
    Step c (some (.started c.scheduler.nextId name))
      { c with
        scheduler := c.scheduler.enrol name cpu object alone startTime
        starting := c.starting ++ [⟨c.scheduler.nextId, host, job⟩] }
  /-- It is put into the queue. -/
  | enqueue (before after : List Starting) (w : Starting) (hw : c.starting = before ++ w :: after) :
    Step c none
      { c with scheduler := c.scheduler.enqueue w.child w.job, starting := before ++ after }
  /-- A thread comes to its end. -/
  | finish (id : ThreadId) (outcome : Outcome) (hid : id ≠ mainThread) (hacts : c.Acts id) :
    Step c (some (.ended id outcome)) { c with scheduler := c.scheduler.finish id outcome }
  /-- A thread dies, which changes nothing that the others can see. -/
  | die (id : ThreadId) (s : Scheduler) (hid : id ≠ mainThread) (hacts : c.Acts id)
      (hs : c.scheduler.Rests s) (hdead : s.isDead id = true) :
    Step c (some (.died id)) { c with scheduler := s, fallen := id :: c.fallen }
  | rest (s : Scheduler) (hs : c.scheduler.Rests s) : Step c none { c with scheduler := s }
  /-- The main thread begins to join. -/
  | begin (hmain : c.Acts mainThread) : Step c none { c with joining := some ⟨[], [], []⟩ }
  | drain (outcomes : List ThreadOutcome) (lost : List ThreadId)
      (hjoining : c.joining = some ⟨[], outcomes, lost⟩) (hwaiting : c.scheduler.waiting ≠ []) :
    Step c none
      { c with
        scheduler := c.scheduler.takeWaiting.2
        joining := some ⟨c.scheduler.waiting, outcomes, lost⟩ }
  /-- A thread that has come to its end or died is joined. -/
  | collect (id : ThreadId) (job : Job) (batch : List (ThreadId × Job))
      (outcomes : List ThreadOutcome) (lost : List ThreadId)
      (hjoining : c.joining = some ⟨(id, job) :: batch, outcomes, lost⟩) (hended : ¬c.Busy id) :
    Step c none
      { c with
        scheduler := (c.scheduler.takeOutcome id).2
        joining := some ⟨batch, outcomes ++ c.scheduler.taken id,
          lost ++ if id ∈ c.fallen then [id] else []⟩ }
  /-- The queue is found to be empty, and the `outcomes` are reported in the order of their threads.
  -/
  | leave (outcomes : List ThreadOutcome) (lost : List ThreadId)
      (hjoining : c.joining = some ⟨[], outcomes, lost⟩)
      (hwaiting : c.scheduler.waiting = []) :
    Step c (some (.joined (outcomes.mergeSort fun a b => decide (a.id ≤ b.id))))
      { c with joining := none }

/-- What can have happened to a `Crew` that began with the main thread only. -/
inductive Run (hz : Nat) (timeLimit : Option Nat) : List ThreadEvent → Crew → Prop where
  | start : Run hz timeLimit []
      { scheduler := ((Scheduler.ofSettings hz timeLimit).attach "main" 0).2 }
  | step {trace : List ThreadEvent} {c c' : Crew} {e : Option ThreadEvent}
      (h : Run hz timeLimit trace c) (hstep : c.Step e c') : Run hz timeLimit (e.toList ++ trace) c'

/-! ### Where the threads are -/

theorem parts_of_joining {c : Crew} {j : Join} (hjoining : c.joining = some j) :
    c.batch = j.batch ∧ c.collected = j.outcomes ∧ c.lost = j.lost := by
  simp [batch, collected, lost, hjoining]

/-- Whether a thread is `Busy` depends on its standing, and on the join if it is the main thread. -/
theorem Busy.of_standings {c c' : Crew} {id : ThreadId} (hbusy : c.Busy id)
    (hjoining : c'.joining = c.joining) (hfallen : id ∈ c'.fallen → id ∈ c.fallen)
    (hstandings : ∀ t ∈ c.scheduler.standings, t.id = id → t.running = true →
      ∃ t' ∈ c'.scheduler.standings, t'.id = id ∧ t'.running = true) : c'.Busy id := by
  rcases hbusy with ⟨hmain, hidle⟩ | ⟨hid, halive, t, ht, heq, hrunning⟩
  · exact .inl ⟨hmain, hjoining.trans hidle⟩
  · exact .inr ⟨hid, fun h => halive (hfallen h), hstandings t ht heq hrunning⟩

/-- A thread that is pending: it counts as `running`, or it has `ended` and its outcome is still
there.
-/
def Live (trace : List ThreadEvent) (t : Standing) : Prop :=
  (t.running = true ∧ t.outcome = none) ∨
    t.running = false ∧ ∃ r : Outcome, .ended t.id r ∈ trace ∧ t.outcome = some r.settled

/-- What is `Reported` of a thread: its name and how it `ended`. -/
def Reported (trace : List ThreadEvent) (o : ThreadOutcome) : Prop :=
  .started o.id o.name ∈ trace ∧ o.id ∉ deaths trace ∧
    ∃ r : Outcome, .ended o.id r ∈ trace ∧ o.result = r.settled

/-- Every thread is accounted for. -/
structure Account (trace : List ThreadEvent) (c : Crew) : Prop where
  /-- The threads are the main thread and those that have been started. -/
  ids : c.scheduler.standings.map (·.id) = mainThread :: starts trace
  /-- Their numbers are given out one after the other. -/
  numbers : c.scheduler.nextId = 2 + (starts trace).length ∧
    starts trace = List.range' 2 (starts trace).length
  /-- Those that have been started since the last join are `pending`, `collected` or lost. -/
  unjoined : (c.pending ++ (c.collected.map (·.id) ++ c.lost)).Perm (ThreadEvent.unjoined trace)
  /-- The threads that are `pending` are `Live`, and the others have nothing left to report and have
  died if they are running. -/
  standing : ∀ t ∈ c.scheduler.standings, t.id ≠ mainThread → .started t.id t.name ∈ trace ∧
    (t.id ∈ c.pending ∧ Live trace t ∨
      t.id ∉ c.pending ∧ t.outcome = none ∧ (t.running = true → t.id ∈ c.fallen))
  /-- The threads that have died. -/
  fallen : c.fallen = deaths trace ∧ ∀ id ∈ c.fallen,
    id ∈ starts trace ∧ c.scheduler.isDead id = true
  /-- They count as `running`. -/
  running : ∀ t ∈ c.scheduler.standings, t.id ∈ c.fallen → t.running = true
  lost : ∀ id ∈ c.lost, id ∈ c.fallen
  /-- The outcomes that have been `collected` are those of the threads. -/
  collected : ∀ o ∈ c.collected, Reported trace o
  /-- A thread that is `starting` another one is older than that, and it is not over. -/
  hosts : ∀ w ∈ c.starting, w.host < w.child ∧ c.Busy w.host

theorem Live.mono {trace : List ThreadEvent} {t : Standing} (h : Live trace t) (e : ThreadEvent) :
    Live (e :: trace) t := by
  rcases h with h | ⟨hrunning, r, hended, houtcome⟩
  · exact .inl h
  · exact .inr ⟨hrunning, r, List.mem_cons_of_mem _ hended, houtcome⟩

theorem Reported.mono {trace : List ThreadEvent} {o : ThreadOutcome} (h : Reported trace o)
    {e : ThreadEvent} (he : o.id ∉ deaths (e :: trace)) : Reported (e :: trace) o := by
  obtain ⟨hstarted, -, r, hended, hresult⟩ := h
  exact ⟨List.mem_cons_of_mem _ hstarted, he, r, List.mem_cons_of_mem _ hended, hresult⟩

namespace Account

variable {trace : List ThreadEvent} {c c' : Crew} {id : ThreadId}
  {outcomes : List ThreadOutcome} {lost : List ThreadId} (h : c.Account trace)

include h

theorem sorted : (mainThread :: starts trace).Pairwise (· < ·) := by
  rw [h.numbers.2]
  exact List.pairwise_lt_range' (s := 1) (n := _ + 1)

theorem lt_nextId {t : Standing} (ht : t ∈ c.scheduler.standings) : t.id < c.scheduler.nextId := by
  have hid : t.id ∈ List.range' 1 ((starts trace).length + 1) := by
    rw [List.range'_succ, ← h.numbers.2, ← show _ = 1 :: _ from h.ids]
    exact List.mem_map_of_mem ht
  rw [h.numbers.1]
  exact Nat.lt_of_lt_of_eq (List.mem_range'_1.1 hid).2 (by omega)

theorem nodup : (c.scheduler.standings.map (·.id)).Nodup := by
  rw [h.ids]
  exact h.sorted.imp Nat.ne_of_lt

theorem unjoined_sorted : (ThreadEvent.unjoined trace).Pairwise (· < ·) :=
  (List.pairwise_cons.1 h.sorted).2.sublist (unjoined_sublist trace)

theorem starts_nodup : (starts trace).Nodup :=
  (List.pairwise_cons.1 h.sorted).2.imp Nat.ne_of_lt

theorem nextId_not_mem : c.scheduler.nextId ∉ deaths trace := by
  intro hin
  rw [← h.fallen.1] at hin
  have hmem : c.scheduler.nextId ∈ c.scheduler.standings.map (·.id) :=
    h.ids ▸ List.mem_cons_of_mem _ (h.fallen.2 _ hin).1
  obtain ⟨t, ht, hid⟩ := List.mem_map.1 hmem
  exact Nat.ne_of_lt (h.lt_nextId ht) hid

theorem survivors_sorted : (survivors trace).Pairwise (· < ·) :=
  h.unjoined_sorted.sublist List.filter_sublist

theorem pending_nodup : (c.pending ++ (c.collected.map (·.id) ++ c.lost)).Nodup :=
  h.unjoined.nodup_iff.2 (h.unjoined_sorted.imp Nat.ne_of_lt)

/-- A thread that is `pending` is known and `Live`. -/
theorem exists_of_pending (hid : id ∈ c.pending) :
    id ≠ mainThread ∧ ∃ t ∈ c.scheduler.standings, t.id = id ∧ .started id t.name ∈ trace ∧
      Live trace t := by
  have hstarts : id ∈ starts trace :=
    (unjoined_sublist trace).subset
      (h.unjoined.mem_iff.1 (List.mem_append_left _ hid))
  have hmain : id ≠ mainThread := Nat.ne_of_gt ((List.pairwise_cons.1 h.sorted).1 id hstarts)
  have hids : id ∈ c.scheduler.standings.map (·.id) := h.ids ▸ List.mem_cons_of_mem _ hstarts
  obtain ⟨t, ht, rfl⟩ := List.mem_map.1 hids
  obtain ⟨hstarted, ⟨-, hlive⟩ | ⟨hout, -⟩⟩ := h.standing t ht hmain
  · exact ⟨hmain, t, ht, rfl, hstarted, hlive⟩
  · exact absurd hid hout

theorem allJoined (hpending : c.pending = []) :
    c.scheduler.AllJoined (deaths trace) := by
  refine ⟨?_, fun t ht hid => ?_⟩
  · simp only [pending, List.append_eq_nil_iff, List.map_eq_nil_iff] at hpending
    exact hpending.2.1
  · rcases (h.standing t ht hid).2 with ⟨hin, -⟩ | ⟨-, houtcome, hrunning⟩
    · rw [hpending] at hin
      cases hin
    · rw [← h.fallen.1]
      refine ⟨houtcome, fun hr => ⟨hrunning hr, (h.fallen.2 _ (hrunning hr)).2⟩, fun hdead => ?_⟩
      exact h.running t ht hdead.1

theorem mem_pending_of_busy (hbusy : c.Busy id) (hid : id ≠ mainThread) : id ∈ c.pending := by
  rcases hbusy with ⟨rfl, -⟩ | ⟨-, halive, t, ht, rfl, hrunning⟩
  · exact absurd rfl hid
  · rcases (h.standing t ht hid).2 with ⟨hpending, -⟩ | ⟨-, -, hended⟩
    · exact hpending
    · exact absurd (hended hrunning) halive

theorem mem_survivors (hbusy : c.Busy id) (hid : id ≠ mainThread) :
    id ∈ survivors trace := by
  have hin := h.unjoined.mem_iff.1 (List.mem_append_left _ (h.mem_pending_of_busy hbusy hid))
  rcases hbusy with ⟨hmain, -⟩ | ⟨-, halive, -⟩
  · exact absurd hmain hid
  · exact List.mem_filter.2 ⟨hin, decide_eq_true (h.fallen.1 ▸ halive)⟩

/-- During a join whose threads have all been collected, no thread is on its way into the queue: the
thread that starts it would be on its way itself, and it is older. -/
theorem starting_eq_nil (hjoining : c.joining = some ⟨[], outcomes, lost⟩)
    (hwaiting : c.scheduler.waiting = []) : c.starting = [] := by
  have hpending : c.pending = c.starting.map (·.child) := by
    simp [pending, batch, hjoining, hwaiting]
  -- For each thread on its way there is an older one, so there is none.
  have hnone : ∀ n, ∀ w ∈ c.starting, w.child ≠ n := by
    intro n
    induction n using Nat.strong_induction_on with
    | _ n ih =>
      rintro w hw rfl
      obtain ⟨holder, hbusy⟩ := h.hosts w hw
      have hhost : w.host ≠ mainThread := by
        intro hmain
        rcases hbusy with ⟨-, hidle⟩ | ⟨hother, -⟩
        · rw [hjoining] at hidle
          cases hidle
        · exact hother hmain
      have hmem := h.mem_pending_of_busy hbusy hhost
      rw [hpending] at hmem
      obtain ⟨w', hw', hchild⟩ := List.mem_map.1 hmem
      exact ih w.host holder w' hw' hchild
  exact List.eq_nil_iff_forall_not_mem.2 fun w hw => hnone w.child w hw rfl

/-- The crew of an `Account` is changed in ways that do not matter for the threads. -/
theorem congr (hstandings : c'.scheduler.standings = c.scheduler.standings)
    (hnext : c'.scheduler.nextId = c.scheduler.nextId) (hpending : c'.pending.Perm c.pending)
    (hcollected : c'.collected = c.collected) (hlost : c'.lost = c.lost)
    (hfallen : c'.fallen = c.fallen)
    (hdead : ∀ id, c.scheduler.isDead id = true → c'.scheduler.isDead id = true)
    (hhosts : ∀ w ∈ c'.starting, w ∈ c.starting)
    (hbusy : ∀ w ∈ c'.starting, c.Busy w.host → c'.Busy w.host) : c'.Account trace where
  ids := hstandings ▸ h.ids
  numbers := hnext ▸ h.numbers
  unjoined := by
    rw [hcollected, hlost]
    exact (hpending.append_right _).trans h.unjoined
  standing := by
    intro t ht hid
    rw [hpending.mem_iff, hfallen]
    exact h.standing t (hstandings ▸ ht) hid
  fallen := by
    rw [hfallen]
    exact ⟨h.fallen.1, fun id hid => ⟨(h.fallen.2 id hid).1, hdead id (h.fallen.2 id hid).2⟩⟩
  running := by
    rw [hstandings, hfallen]
    exact h.running
  lost := by
    rw [hlost, hfallen]
    exact h.lost
  collected := hcollected ▸ h.collected
  hosts w hw := ⟨(h.hosts w (hhosts w hw)).1, hbusy w hw (h.hosts w (hhosts w hw)).2⟩

/-- A thread starts another one, which gets the next number. -/
theorem enrol {host : ThreadId} (hhost : c.Acts host) (name : String) (cpu : Nat)
    (object : Option ObjectRef) (alone : Bool) (startTime : Nat) (job : Job) :
    Account (.started c.scheduler.nextId name :: trace)
      { c with
        scheduler := c.scheduler.enrol name cpu object alone startTime
        starting := c.starting ++ [⟨c.scheduler.nextId, host, job⟩] } := by
  set c' : Crew :=
    { c with
      scheduler := c.scheduler.enrol name cpu object alone startTime
      starting := c.starting ++ [⟨c.scheduler.nextId, host, job⟩] }
  have hstandings : c'.scheduler.standings = c.scheduler.standings ++ [_] :=
    Scheduler.standings_enrol
  have hpending : c'.pending.Perm (c.pending ++ [c.scheduler.nextId]) := by
    change ((c.starting ++ _).map Starting.child ++ _).Perm _
    rw [pending, List.map_append, List.append_assoc, List.append_assoc]
    exact List.Perm.append_left _ List.perm_append_comm
  have hbusy : ∀ id, c.Busy id → c'.Busy id := fun id hid =>
    hid.of_standings rfl (fun hfallen => hfallen) fun t ht heq hrunning =>
      ⟨t, hstandings ▸ List.mem_append_left _ ht, heq, hrunning⟩
  obtain ⟨hnext, hstarts⟩ := h.numbers
  have hcons : starts (.started c.scheduler.nextId name :: trace) =
      starts trace ++ [c.scheduler.nextId] := rfl
  refine ⟨?_, ?_, ?_, ?_, ?_, ?_, h.lost, ?_, ?_⟩
  · rw [hstandings, List.map_append, h.ids]
    rfl
  · rw [hcons, List.length_append, List.length_singleton, List.range'_1_concat, ← hstarts, ← hnext]
    exact ⟨(congrArg (· + 1) hnext).trans (Nat.add_assoc _ _ _), rfl⟩
  · refine (hpending.append_right _).trans ?_
    rw [List.append_assoc]
    refine (List.Perm.append_left _ List.perm_append_comm).trans ?_
    rw [← List.append_assoc]
    exact h.unjoined.append_right _
  · intro t ht hid
    rw [hpending.mem_iff, List.mem_append]
    rw [hstandings] at ht
    rcases List.mem_append.1 ht with ht | ht
    · obtain ⟨hstarted, hplace⟩ := h.standing t ht hid
      refine ⟨List.mem_cons_of_mem _ hstarted, ?_⟩
      rcases hplace with ⟨hin, hlive⟩ | ⟨hout, hrest⟩
      · exact .inl ⟨.inl hin, hlive.mono _⟩
      · refine .inr ⟨fun hin => ?_, hrest⟩
        rcases hin with hin | hin
        · exact hout hin
        · exact absurd (List.mem_singleton.1 hin) (Nat.ne_of_lt (h.lt_nextId ht))
    · rw [List.mem_singleton.1 ht]
      exact ⟨List.mem_cons_self, .inl ⟨.inr (List.mem_singleton.2 rfl), .inl ⟨rfl, rfl⟩⟩⟩
  · refine ⟨h.fallen.1, fun id hid => ⟨List.mem_append_left _ (h.fallen.2 id hid).1, ?_⟩⟩
    exact Scheduler.isDead_enrol (h.fallen.2 id hid).2
  · intro t ht hdead
    rw [hstandings] at ht
    rcases List.mem_append.1 ht with ht | ht
    · exact h.running t ht hdead
    · rw [List.mem_singleton.1 ht] at hdead
      exact absurd (h.fallen.1 ▸ hdead) h.nextId_not_mem
  · exact fun o ho => (h.collected o ho).mono (h.collected o ho).2.1
  · intro w hw
    rcases List.mem_append.1 hw with hw | hw
    · exact ⟨(h.hosts w hw).1, hbusy _ (h.hosts w hw).2⟩
    · rw [List.mem_singleton.1 hw]
      refine ⟨?_, hbusy _ hhost.1⟩
      rcases hhost.1 with ⟨hmain, -⟩ | ⟨-, -, t, ht, hid, -⟩
      · rw [hmain, hnext]
        exact Nat.lt_add_right _ Nat.one_lt_two
      · exact hid ▸ h.lt_nextId ht

/-- A thread comes to its end, and its outcome is there until it is taken. -/
theorem finish (hid : id ≠ mainThread) (hacts : c.Acts id) (outcome : Outcome) :
    Account (.ended id outcome :: trace) { c with scheduler := c.scheduler.finish id outcome } := by
  obtain ⟨hbusy, hhost⟩ := hacts
  have hstandings := c.scheduler.standings_finish id outcome
  have halive : id ∉ c.fallen := hbusy.resolve_left (fun hmain => hid hmain.1) |>.2.1
  refine ⟨?_, h.numbers, h.unjoined, ?_, ⟨h.fallen.1, fun id' hid' => ?_⟩, ?_, h.lost,
    fun o ho => (h.collected o ho).mono (h.collected o ho).2.1, ?_⟩
  · rw [hstandings]
    refine (Scheduler.map_id_update ?_ _).trans h.ids
    exact fun _ => rfl
  · intro t' ht' hother
    rw [hstandings] at ht'
    obtain ⟨t, ht, rfl⟩ := List.mem_map.1 ht'
    by_cases htid : t.id = id
    · -- It was running, so it is pending, and now its outcome is there.
      rw [if_pos htid] at hother ⊢
      have hpending := h.mem_pending_of_busy hbusy hid
      refine ⟨List.mem_cons_of_mem _ (h.standing t ht hother).1,
        .inl ⟨(htid ▸ hpending : t.id ∈ c.pending), .inr ⟨rfl, outcome, ?_, rfl⟩⟩⟩
      exact htid ▸ List.mem_cons_self
    · rw [if_neg htid] at hother ⊢
      obtain ⟨hstarted, hplace⟩ := h.standing t ht hother
      refine ⟨List.mem_cons_of_mem _ hstarted, ?_⟩
      rcases hplace with ⟨hin, hlive⟩ | hout
      · exact .inl ⟨hin, hlive.mono _⟩
      · exact .inr hout
  · exact ⟨(h.fallen.2 id' hid').1, Scheduler.isDead_finish outcome (h.fallen.2 id' hid').2⟩
  · intro t' ht' hdead
    rw [hstandings] at ht'
    obtain ⟨t, ht, rfl⟩ := List.mem_map.1 ht'
    by_cases htid : t.id = id
    · rw [if_pos htid] at hdead
      exact absurd (htid ▸ hdead) halive
    · rw [if_neg htid] at hdead ⊢
      exact h.running t ht hdead
  · intro w hw
    refine ⟨(h.hosts w hw).1,
      (h.hosts w hw).2.of_standings rfl (fun hfallen => hfallen) fun t ht heq hrunning => ?_⟩
    -- A thread that is starting another one does not come to its end meanwhile.
    have hne : t.id ≠ id := fun htid =>
      hhost (htid ▸ heq ▸ List.mem_map_of_mem hw)
    refine ⟨t, ?_, heq, hrunning⟩
    rw [hstandings]
    exact List.mem_map.2 ⟨t, ht, if_neg hne⟩

/-- A thread dies. It remains where it was, since nobody has been told. -/
theorem die {s : Scheduler} (hid : id ≠ mainThread) (hacts : c.Acts id) (hs : c.scheduler.Rests s)
    (hdead : s.isDead id = true) :
    Account (.died id :: trace) { c with scheduler := s, fallen := id :: c.fallen } := by
  obtain ⟨hbusy, hhost⟩ := hacts
  have hpending := h.mem_pending_of_busy hbusy hid
  have hsame : pending { c with scheduler := s, fallen := id :: c.fallen } = c.pending := by
    simp only [pending, batch, hs.waiting]
  refine ⟨?_, ?_, ?_, ?_, ⟨congrArg _ h.fallen.1, fun id' hid' => ?_⟩, ?_, ?_, ?_, ?_⟩
  · exact hs.standings ▸ h.ids
  · exact hs.nextId ▸ h.numbers
  · rw [hsame]
    exact h.unjoined
  · intro t ht hother
    obtain ⟨hstarted, hplace⟩ := h.standing t (hs.standings ▸ ht) hother
    rw [hsame]
    refine ⟨List.mem_cons_of_mem _ hstarted, ?_⟩
    rcases hplace with ⟨hin, hlive⟩ | ⟨hout, houtcome, hrunning⟩
    · exact .inl ⟨hin, hlive.mono _⟩
    · exact .inr ⟨hout, houtcome, fun hr => List.mem_cons_of_mem _ (hrunning hr)⟩
  · rcases List.mem_cons.1 hid' with rfl | hid'
    · refine ⟨(unjoined_sublist trace).subset ?_, hdead⟩
      exact h.unjoined.mem_iff.1 (List.mem_append_left _ hpending)
    · exact ⟨(h.fallen.2 id' hid').1, hs.isDead id' (h.fallen.2 id' hid').2⟩
  · intro t ht hin
    rcases List.mem_cons.1 hin with htid | hin
    · rcases hbusy with ⟨hmain, -⟩ | ⟨-, -, t', ht', hid', hrunning⟩
      · exact absurd hmain hid
      · rwa [List.inj_on_of_nodup_map h.nodup (hs.standings ▸ ht) ht' (htid.trans hid'.symm)]
    · exact h.running t (hs.standings ▸ ht) hin
  · exact fun id' hid' => List.mem_cons_of_mem _ (h.lost id' hid')
  · -- What has been collected belongs to threads that are pending no more.
    intro o ho
    have hne : o.id ≠ id := by
      rintro rfl
      have hdisjoint := (List.nodup_append.1 h.pending_nodup).2.2
      exact hdisjoint _ hpending _ (List.mem_append_left _ (List.mem_map_of_mem ho)) rfl
    refine (h.collected o ho).mono fun hin => ?_
    rcases List.mem_cons.1 hin with heq | hin
    · exact hne heq
    · exact (h.collected o ho).2.1 hin
  · intro w hw
    have hne : w.host ≠ id := fun heq => hhost (heq ▸ List.mem_map_of_mem hw)
    refine ⟨(h.hosts w hw).1, (h.hosts w hw).2.of_standings rfl (fun hin => ?_) ?_⟩
    · exact (List.mem_cons.1 hin).resolve_left hne
    · exact fun t ht heq hrunning => ⟨t, hs.standings ▸ ht, heq, hrunning⟩

/-- A thread that has come to its end or died is joined, and its outcome is taken (`takeOutcome`).
-/
theorem collect {job : Job} {batch : List (ThreadId × Job)}
    (hjoining : c.joining = some ⟨(id, job) :: batch, outcomes, lost⟩) (hended : ¬c.Busy id) :
    Account trace
      { c with
        scheduler := (c.scheduler.takeOutcome id).2
        joining := some ⟨batch, outcomes ++ c.scheduler.taken id,
          lost ++ if id ∈ c.fallen then [id] else []⟩ } := by
  have hstandings := c.scheduler.standings_takeOutcome id
  obtain ⟨hbatch, hcollected, hlost⟩ := parts_of_joining hjoining
  have hpending : c.pending.Perm (id ::
      (c.starting.map (·.child) ++ (c.scheduler.waiting.map (·.1) ++ batch.map (·.1)))) := by
    rw [pending, hbatch, List.map_cons]
    exact (List.Perm.append_left _ List.perm_middle).trans List.perm_middle
  have hmem : id ∈ c.pending := hpending.mem_iff.2 List.mem_cons_self
  obtain ⟨hmain, t, ht, hid, hstarted, hlive⟩ := h.exists_of_pending hmem
  -- Since the thread is not busy, it has died, or else its outcome is there.
  have hjoined : (id ∈ c.fallen ∧ c.scheduler.taken id = []) ∨
      id ∉ c.fallen ∧ t.running = false ∧ ∃ r : Outcome, .ended id r ∈ trace ∧
        c.scheduler.taken id = [{ id, name := t.name, result := r.settled }] := by
    rcases hlive with ⟨hrunning, hnone⟩ | ⟨hrunning, r, hr, houtcome⟩
    · refine .inl ⟨?_, hid ▸ Scheduler.taken_of_none h.nodup ht hnone⟩
      exact Classical.byContradiction fun halive =>
        hended (.inr ⟨hmain, halive, t, ht, hid, hrunning⟩)
    · refine .inr ⟨fun hdead => ?_, hrunning, r, hid ▸ hr,
        hid ▸ Scheduler.taken_of_standing h.nodup ht houtcome⟩
      exact Bool.false_ne_true (hrunning.symm.trans (h.running t ht (hid ▸ hdead)))
  have hfresh : id ∉ c.starting.map (·.child) ++
      (c.scheduler.waiting.map (·.1) ++ batch.map (·.1)) := by
    have hnodup := hpending.nodup_iff.1 (List.nodup_append.1 h.pending_nodup).1
    exact (List.nodup_cons.1 hnodup).1
  refine ⟨?_, h.numbers, ?_, ?_, ⟨h.fallen.1, fun id' hid' => ?_⟩, ?_, ?_, ?_, ?_⟩
  · rw [hstandings]
    refine (Scheduler.map_id_update ?_ _).trans h.ids
    exact fun _ => rfl
  · refine List.Perm.trans ?_ h.unjoined
    rw [hcollected, hlost]
    refine List.Perm.trans ?_ (hpending.append_right _).symm
    change (_ ++ ((outcomes ++ c.scheduler.taken id).map (·.id) ++
      (lost ++ if id ∈ c.fallen then [id] else []))).Perm _
    rcases hjoined with ⟨hdead, htaken⟩ | ⟨halive, -, r, -, htaken⟩
    · rw [htaken, if_pos hdead, List.append_nil, ← List.append_assoc, ← List.append_assoc]
      refine (List.perm_append_singleton _ _).trans (.cons _ ?_)
      rw [List.append_assoc]
      exact .refl _
    · rw [htaken, if_neg halive, List.append_nil, List.map_append, List.append_assoc,
        List.map_singleton]
      exact (List.Perm.append_left _ List.perm_middle).trans List.perm_middle
  · intro t' ht' hother
    rw [hstandings] at ht'
    obtain ⟨t₀, ht₀, rfl⟩ := List.mem_map.1 ht'
    by_cases hsame : t₀.id = id
    · -- The thread that is joined has nothing left to report.
      rw [if_pos hsame] at hother ⊢
      obtain rfl : t₀ = t := List.inj_on_of_nodup_map h.nodup ht₀ ht (hsame.trans hid.symm)
      refine ⟨hid ▸ hstarted, .inr ⟨fun hin => hfresh (hsame ▸ hin), rfl, fun hrunning => ?_⟩⟩
      rcases hjoined with ⟨hdead, -⟩ | ⟨-, hstopped, -⟩
      · exact hsame ▸ hdead
      · exact absurd (hstopped.symm.trans hrunning) Bool.false_ne_true
    · rw [if_neg hsame] at hother ⊢
      obtain ⟨hstarted', hplace'⟩ := h.standing t₀ ht₀ hother
      rw [hpending.mem_iff, List.mem_cons, or_iff_right hsame] at hplace'
      exact ⟨hstarted', hplace'⟩
  · refine ⟨(h.fallen.2 id' hid').1, ?_⟩
    exact Scheduler.isDead_takeOutcome (h.fallen.2 id' hid').2
  · intro t' ht' hdead
    rw [hstandings] at ht'
    obtain ⟨t₀, ht₀, rfl⟩ := List.mem_map.1 ht'
    by_cases hsame : t₀.id = id
    · rw [if_pos hsame] at hdead ⊢
      exact h.running t₀ ht₀ hdead
    · rw [if_neg hsame] at hdead ⊢
      exact h.running t₀ ht₀ hdead
  · intro id' hid'
    rcases List.mem_append.1 (show id' ∈ lost ++ _ from hid') with hid' | hid'
    · exact h.lost id' (hlost ▸ hid')
    · split at hid'
      · next hdead => exact List.mem_singleton.1 hid' ▸ hdead
      · cases hid'
  · intro o ho
    change o ∈ outcomes ++ c.scheduler.taken id at ho
    rcases List.mem_append.1 ho with ho | ho
    · exact h.collected o (hcollected ▸ ho)
    · rcases hjoined with ⟨-, htaken⟩ | ⟨halive, -, r, hr, htaken⟩
      · rw [htaken] at ho
        cases ho
      · rw [htaken] at ho
        rw [List.mem_singleton.1 ho]
        exact ⟨hstarted, h.fallen.1 ▸ halive, r, hr, rfl⟩
  · intro w hw
    obtain ⟨holder, hbusy⟩ := h.hosts w hw
    refine ⟨holder, ?_⟩
    rcases hbusy with ⟨-, hidle⟩ | ⟨hhost, halive, t', ht', heq, hrunning⟩
    · rw [hjoining] at hidle
      cases hidle
    · refine .inr ⟨hhost, halive, _, hstandings ▸ List.mem_map_of_mem ht', ?_⟩
      split <;> exact ⟨heq, hrunning⟩

/-- A join is over, and nothing is left to report. -/
theorem leave (hjoining : c.joining = some ⟨[], outcomes, lost⟩)
    (hwaiting : c.scheduler.waiting = []) (os : List ThreadOutcome) :
    Account (.joined os :: trace) { c with joining := none } := by
  have hstarting := h.starting_eq_nil hjoining hwaiting
  have hpending : c.pending = [] := by simp [pending, batch, hjoining, hwaiting, hstarting]
  have hpending' : pending { c with joining := none } = [] := by
    simp [pending, batch, hwaiting, hstarting]
  refine ⟨h.ids, h.numbers, ?_, ?_, h.fallen, h.running, nofun, nofun, ?_⟩
  · rw [hpending']
    exact .refl _
  · intro t ht hid
    obtain ⟨hstarted, ⟨hin, -⟩ | ⟨-, hrest⟩⟩ := h.standing t ht hid
    · rw [hpending] at hin
      cases hin
    · refine ⟨List.mem_cons_of_mem _ hstarted, .inr ⟨?_, hrest⟩⟩
      rw [hpending']
      exact List.not_mem_nil
  · intro w hw
    change w ∈ c.starting at hw
    rw [hstarting] at hw
    cases hw

end Account

variable {trace : List ThreadEvent} {c c' : Crew} {e : Option ThreadEvent}

/-- Every `Step` keeps the `Account`. -/
theorem Step.account (hstep : c.Step e c') (h : c.Account trace) :
    c'.Account (e.toList ++ trace) := by
  cases hstep with
  | enrol host name cpu object alone startTime job hhost =>
    exact h.enrol hhost name cpu object alone startTime job
  | enqueue before after w hw =>
    refine h.congr rfl rfl ?_ rfl rfl rfl (fun _ hdead => hdead) (fun w' hw' => ?_)
      fun _ _ hbusy => hbusy
    · -- The thread moves from one place to another.
      simp only [pending, batch, Scheduler.enqueue, hw, List.map_append, List.map_cons,
        List.map_nil, List.append_assoc, List.cons_append]
      exact List.Perm.append_left _ ((List.Perm.append_left _ List.perm_middle).trans
        (List.perm_middle.trans (by simp)))
    · rw [hw]
      rcases List.mem_append.1 hw' with hw' | hw'
      · exact List.mem_append_left _ hw'
      · exact List.mem_append_right _ (List.mem_cons_of_mem _ hw')
  | finish id outcome hid hacts => exact h.finish hid hacts outcome
  | die id s hid hacts hs hdead => exact h.die hid hacts hs hdead
  | rest s hs =>
    refine h.congr hs.standings hs.nextId ?_ rfl rfl rfl hs.isDead (fun _ hw => hw)
      fun w hw hbusy => ?_
    · simp only [pending, hs.waiting]
      exact .refl _
    · exact hbusy.of_standings rfl (fun hin => hin) fun t ht heq hrunning =>
        ⟨t, hs.standings ▸ ht, heq, hrunning⟩
  | begin hmain =>
    obtain ⟨hbusy, hhosts⟩ := hmain
    have hidle : c.joining = none := by
      rcases hbusy with ⟨-, hidle⟩ | ⟨hmain, -⟩
      · exact hidle
      · exact absurd rfl hmain
    refine h.congr rfl rfl ?_ ?_ ?_ rfl (fun _ hdead => hdead) (fun _ hw => hw) fun w hw hbusy => ?_
    · simp [pending, batch, hidle]
    · simp [collected, hidle]
    · simp [lost, hidle]
    · rcases hbusy with ⟨hmain, -⟩ | hbusy
      · exact absurd (List.mem_map_of_mem hw) (hmain ▸ hhosts)
      · exact .inr hbusy
  | drain outcomes lost hjoining hwaiting =>
    refine h.congr rfl rfl ?_ ?_ ?_ rfl (fun _ hdead => hdead) (fun _ hw => hw) fun w hw hbusy => ?_
    · simp [pending, batch, hjoining, Scheduler.takeWaiting]
    · exact (parts_of_joining hjoining).2.1.symm
    · exact (parts_of_joining hjoining).2.2.symm
    · rcases hbusy with ⟨-, hidle⟩ | hbusy
      · rw [hjoining] at hidle
        cases hidle
      · exact .inr hbusy
  | collect id job batch outcomes lost hjoining hended => exact h.collect hjoining hended
  | leave outcomes lost hjoining hwaiting => exact h.leave hjoining hwaiting _

theorem Run.account {hz : Nat} {timeLimit : Option Nat} (h : Run hz timeLimit trace c) :
    c.Account trace := by
  induction h with
  | start =>
    refine ⟨rfl, ⟨rfl, rfl⟩, .refl [], fun t ht hid => ?_, ⟨rfl, nofun⟩, nofun, nofun, nofun, nofun⟩
    rw [List.mem_singleton.1 (show t ∈ [_] from ht)] at hid
    exact absurd rfl hid
  | step h hstep ih => exact hstep.account ih

/-! ### Reports -/

section Reports

variable {hz : Nat} {timeLimit : Option Nat} {outcomes os : List ThreadOutcome}
  {later earlier : List ThreadEvent} {lost : List ThreadId}

/-- The `outcomes` of a join are those of the threads that have been started since the one before
and have not died, in the order of their numbers. -/
theorem Account.map_id_sorted (h : c.Account trace)
    (hjoining : c.joining = some ⟨[], outcomes, lost⟩) (hwaiting : c.scheduler.waiting = []) :
    (outcomes.mergeSort fun a b => decide (a.id ≤ b.id)).map (·.id) =
      survivors trace := by
  have hstarting := h.starting_eq_nil hjoining hwaiting
  have hall : (outcomes.map (·.id) ++ lost).Perm (ThreadEvent.unjoined trace) := by
    have hperm := h.unjoined
    simpa [pending, batch, Crew.collected, Crew.lost, hjoining, hwaiting, hstarting] using hperm
  have hcollected : (outcomes.map (·.id)).Perm (survivors trace) := by
    -- Those that were found dead have died, and those that were collected have not.
    obtain ⟨-, hoc, hlc⟩ := parts_of_joining hjoining
    have hfilter := hall.filter (· ∉ deaths trace)
    rw [List.filter_append, List.filter_eq_self.2, List.filter_eq_nil_iff.2,
      List.append_nil] at hfilter
    · exact hfilter
    · intro id hid
      rw [← h.fallen.1]
      simpa using h.lost id (hlc ▸ hid)
    · intro id hid
      obtain ⟨o, ho, rfl⟩ := List.mem_map.1 hid
      simpa using (h.collected o (hoc ▸ ho)).2.1
  have hsorted : ((outcomes.mergeSort fun a b => decide (a.id ≤ b.id)).map (·.id)).Pairwise
      (· ≤ ·) := by
    refine List.pairwise_map.2 ((List.pairwise_mergeSort ?_ ?_ outcomes).imp of_decide_eq_true)
    · intro a b d hab hbd
      exact decide_eq_true (Nat.le_trans (of_decide_eq_true hab) (of_decide_eq_true hbd))
    · intro a b
      rw [Bool.or_eq_true, decide_eq_true_eq, decide_eq_true_eq]
      exact Nat.le_total a.id b.id
  refine List.Perm.eq_of_pairwise (fun a b _ _ hab hba => Nat.le_antisymm hab hba) hsorted
    (h.survivors_sorted.imp Nat.le_of_lt) ?_
  exact ((List.mergeSort_perm outcomes _).map _).trans hcollected

/-- What a join reports, given what happened before it was over. -/
def Exact (earlier : List ThreadEvent) (os : List ThreadOutcome) : Prop :=
  os.map (·.id) = survivors earlier ∧ (os.map (·.id)).Pairwise (· < ·) ∧
    ∀ o ∈ os, Reported earlier o

/-- A join reports the threads (`Exact`) that were started since the one before, with their names
and ends. -/
theorem Run.joined (h : Run hz timeLimit trace c)
    (htrace : trace = later ++ .joined os :: earlier) : Exact earlier os := by
  induction h generalizing later with
  | start => simp at htrace
  | @step trace c c' e h hstep ih =>
    -- The join is the last event, or it was there before.
    cases later with
    | cons first later =>
      cases e with
      | none => exact ih (htrace : trace = _)
      | some e => exact ih (List.cons.inj htrace).2
    | nil =>
      cases e with
      | none => exact ih (htrace : trace = [] ++ _)
      | some e =>
        obtain ⟨rfl, rfl⟩ := List.cons.inj htrace
        cases hstep with
        | leave outcomes lost hjoining hwaiting =>
          have hids := h.account.map_id_sorted hjoining hwaiting
          refine ⟨hids, ?_, fun o ho => ?_⟩
          · rw [hids]
            exact h.account.survivors_sorted
          have hmem : o ∈ c.collected := by
            rw [(parts_of_joining hjoining).2.1]
            exact (List.mergeSort_perm outcomes _).mem_iff.1 ho
          exact h.account.collected o hmem

/-- The threads that have been started and have not died are those that the joins have reported
(`reports`), one join after the other, and those that are unjoined. -/
theorem Run.reports_append (h : Run hz timeLimit trace c) :
    (reports trace).reverse.flatten.map (·.id) ++ survivors trace =
      (starts trace).filter (· ∉ deaths trace) := by
  induction h with
  | start => rfl
  | @step trace c c' e h hstep ih =>
    cases hstep with
    | enrol host name cpu object alone startTime job hhost =>
      change _ ++ (ThreadEvent.unjoined trace ++ [c.scheduler.nextId]).filter _ =
        (starts trace ++ [c.scheduler.nextId]).filter _
      rw [List.filter_append, List.filter_append, ← List.append_assoc]
      exact congrArg (· ++ _) ih
    | die id s hid hacts hs hdead =>
      -- The thread that dies has not been reported yet.
      have hin : id ∈ survivors trace := h.account.mem_survivors hacts.1 hid
      have hnodup : ((starts trace).filter (· ∉ deaths trace)).Nodup :=
        h.account.starts_nodup.filter _
      rw [← ih] at hnodup
      change _ ++ survivors (.died id :: trace) =
        (starts trace).filter (· ∉ id :: deaths trace)
      rw [survivors_died, filter_died, ← ih, List.filter_append]
      refine congrArg (· ++ _) (List.filter_eq_self.2 fun a ha => ?_).symm
      refine decide_eq_true fun heq => ?_
      exact (List.nodup_append.1 hnodup).2.2 a ha id hin heq
    | leave outcomes lost hjoining hwaiting =>
      have hids := h.account.map_id_sorted hjoining hwaiting
      change (_ :: reports trace).reverse.flatten.map (·.id) ++ [] = _
      rw [List.append_nil, List.reverse_cons, List.flatten_append, List.map_append,
        List.flatten_singleton, hids]
      exact ih
    | enqueue | finish | rest | begin | drain | collect => exact ih

/-- A thread is reported by the first join after it was `started`, once, and by no other; unless it
has died, and then it is not reported. -/
theorem Run.joined_once (h : Run hz timeLimit trace c) {between : List ThreadEvent} {id : ThreadId}
    {name : String}
    (htrace : trace = later ++ .joined os :: (between ++ .started id name :: earlier))
    (hbetween : ∀ e ∈ between, e.IsStep) :
    (os.map (·.id)).count id =
        (if id ∈ deaths (between ++ .started id name :: earlier) then 0 else 1) ∧
      ∀ os', .joined os' ∈ later ∨ .joined os' ∈ earlier → id ∉ os'.map (·.id) := by
  obtain ⟨hids, hsorted, -⟩ := h.joined htrace
  have hunjoined : id ∈ ThreadEvent.unjoined (between ++ .started id name :: earlier) :=
    mem_unjoined_append hbetween (List.mem_append_right _ (List.mem_singleton.2 rfl))
  have hreports := h.reports_append
  by_cases hdead : id ∈ deaths (between ++ .started id name :: earlier)
  · -- Whoever has died is in no report.
    have hnone : ∀ os', .joined os' ∈ trace → id ∉ os'.map (·.id) := by
      intro os' hos' hid
      have hin : id ∈ (reports trace).reverse.flatten.map (·.id) := by
        obtain ⟨o, ho, hoid⟩ := List.mem_map.1 hid
        refine List.mem_map.2 ⟨o, List.mem_flatten.2 ⟨os', ?_, ho⟩, hoid⟩
        exact List.mem_reverse.2 (mem_reports hos')
      have hstarts := hreports ▸ List.mem_append_left (survivors trace) hin
      have halive := of_decide_eq_true (List.mem_filter.1 hstarts).2
      rw [htrace] at halive
      have hdead' : id ∈ deaths
          (.joined os :: (between ++ .started id name :: earlier)) := hdead
      exact halive (mem_deaths_append hdead')
    rw [if_pos hdead, htrace] at *
    refine ⟨List.count_eq_zero.2 (hnone os (by simp)), fun os' hos' => hnone os' ?_⟩
    rcases hos' with hos' | hos' <;> simp [hos']
  · have hmem : id ∈ os.map (·.id) := hids ▸ List.mem_filter.2 ⟨hunjoined, decide_eq_true hdead⟩
    -- Every thread was started once, so no two joins report the same one.
    have hdisjoint : ((reports trace).map (·.map (·.id))).Pairwise List.Disjoint := by
      have hnodup : ((starts trace).filter (· ∉ deaths trace)).Nodup :=
        h.account.starts_nodup.filter _
      rw [← hreports, List.map_flatten, List.map_reverse] at hnodup
      have hpairwise := (List.nodup_flatten.1 (List.nodup_append.1 hnodup).1).2
      exact (List.pairwise_reverse.1 hpairwise).imp List.disjoint_symm
    rw [htrace, ThreadEvent.reports_append, reports, ThreadEvent.reports_append,
      List.map_append, List.map_cons, List.pairwise_append, List.pairwise_cons] at hdisjoint
    obtain ⟨-, ⟨hearlier, -⟩, hlater⟩ := hdisjoint
    rw [if_neg hdead]
    refine ⟨List.count_eq_one_of_mem (hsorted.imp Nat.ne_of_lt) hmem, fun os' hos' hid => ?_⟩
    rcases hos' with hos' | hos'
    · exact hlater _ (List.mem_map_of_mem (mem_reports hos')) _ List.mem_cons_self hid
        hmem
    · have hreport : os' ∈ reports between ++ reports earlier :=
        List.mem_append_right _ (mem_reports hos')
      exact hearlier _ (List.mem_map_of_mem hreport) hmem hid

theorem Run.allJoined (h : Run hz timeLimit (.joined os :: trace) c) :
    c.scheduler.AllJoined (deaths trace) :=
  h.account.allJoined (List.append_eq_nil_iff.1 h.account.unjoined.eq_nil).1

end Reports

end Crew

end Animator

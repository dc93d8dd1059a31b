import Animator.Proofs.Threads.Crew
import Animator.Proofs.Threads.Step
import Animator.Proofs.Typing.Session

/-!
# One thread per object

Whatever a session evaluates, and in whatever order it starts, stops and joins threads, the threads
and marks change by `Machine.ThreadStep` only (`Machine.Session.steps`). Evaluations start threads
and never end them (`threadDrift`). Joining ends each thread once, while it is running: the threads
that wait, and those that were taken to be joined, are running threads with different numbers
(`Machine.Pending`).

So no object has more than one running thread, as long as every thread is started while its object
has none (`one_thread_per_object`). Starting an object checks that first. But then it evaluates the
times of the thread, and nothing keeps these from starting the same object
(`two_threads_of_one_object`).
-/

namespace Animator

/-! ### Evaluations -/

theorem Heap.Assigned.mark {h h' : Heap} (hs : h.Assigned h') (oid : ObjectId) :
    h'.mark oid = h.mark oid := by
  induction hs with
  | refl => rfl
  | tail _ hlast ih =>
    obtain ⟨c, v, hassign⟩ := hlast
    rw [← ih]
    unfold Heap.assign at hassign
    split at hassign
    · obtain ⟨w, -, hstore⟩ := bind_eq_ok hassign
      cases hstore
      rfl
    · cases hassign

namespace Scheduler

/-- What an evaluation does to the `Scheduler`. -/
inductive Move (s : Scheduler) : Scheduler → Prop where
  | spawn (name : String) (cpu : Nat) (object : Option ObjectRef) (alone : Bool) (startTime : Nat)
      (job : Job) : Move s (s.spawn name cpu object alone startTime job).2
  | rest {s' : Scheduler} (h : s.Rests s') : Move s s'

def Moves : Scheduler → Scheduler → Prop :=
  Relation.ReflTransGen Move

end Scheduler

namespace Machine

variable {P : Program} {o : Origin} {T : ThreadId → Prop} {Made : ObjectRef → Prop}
  {m m₁ m₂ m' : Machine}
  {ids : List ThreadId} {id : ThreadId}

theorem Rests.ofModify {f : ThreadRecord → ThreadRecord} (hf : ∀ r, (f r).tenure = r.tenure) :
    m.Rests { m with scheduler := m.scheduler.modify id f } := by
  refine ⟨?_, rfl, fun _ => rfl⟩
  simp only [Machine.tenures, Scheduler.modify, List.map_map]
  refine List.map_congr_left fun r _ => ?_
  simp only [Function.comp_apply]
  split
  · exact hf r
  · rfl

/-- Some threads are to be joined. They and those that wait are `running`, each of them once. -/
structure Pending (ids : List ThreadId) (m : Machine) : Prop extends m.Numbered where
  distinct : (ids ++ m.scheduler.waiting.map (·.1)).Nodup
  running : ∀ id ∈ ids ++ m.scheduler.waiting.map (·.1),
    ∃ t ∈ m.tenures, t.id = id ∧ t.running = true

theorem Pending.rests (hm : m.Pending ids) (h : m.Rests m')
    (hwaiting : m'.scheduler.waiting = m.scheduler.waiting) : m'.Pending ids := by
  refine ⟨ThreadStep.numbered (.rest h) hm.toNumbered, ?_, ?_⟩
  · rw [hwaiting]
    exact hm.distinct
  · rw [hwaiting, h.tenures]
    exact hm.running

/-- An evaluation takes thread steps, and it ends no thread that is to be `joined`. -/
structure Proceeds (m m' : Machine) : Prop where
  steps : m.ThreadSteps m'
  moves : m.scheduler.Moves m'.scheduler
  /-- What happens to threads that are to be joined. -/
  pending : ∀ ids, m.Pending ids → m'.Pending ids

namespace Proceeds

theorem refl : m.Proceeds m :=
  ⟨.refl, .refl, fun _ hm => hm⟩

theorem trans (h : m.Proceeds m₁) (h' : m₁.Proceeds m₂) : m.Proceeds m₂ :=
  ⟨h.steps.trans h'.steps, h.moves.trans h'.moves, fun ids hm => h'.pending ids (h.pending ids hm)⟩

theorem ofRests (h : m.Rests m') (hs : m.scheduler.Rests m'.scheduler) : m.Proceeds m' :=
  ⟨.single (.rest h), .single (.rest hs), fun _ hm => hm.rests h hs.waiting⟩

theorem ofMarks (hscheduler : m'.scheduler = m.scheduler)
    (hmarks : ∀ oid, m'.heap.mark oid = m.heap.mark oid) : m.Proceeds m' := by
  refine .ofRests ⟨?_, ?_, hmarks⟩ ?_
  · rw [tenures, tenures, hscheduler]
  · rw [hscheduler]
  · rw [hscheduler]
    exact ⟨rfl, rfl, rfl, fun _ hdead => hdead⟩

theorem ofModify {f : ThreadRecord → ThreadRecord} (htenure : ∀ r, (f r).tenure = r.tenure)
    (hstanding : ∀ r, (f r).standing = r.standing)
    (hdead : ∀ r, r.dead = true → (f r).dead = true) :
    m.Proceeds { m with scheduler := m.scheduler.modify id f } := by
  have hid : ∀ r, (f r).thread.id = r.thread.id := fun r => congrArg Standing.id (hstanding r)
  refine .ofRests (.ofModify htenure) ⟨rfl, rfl, ?_, fun _ => Scheduler.isDead_modify hid hdead⟩
  rw [Scheduler.standings_modify (g := fun t => t) hstanding]
  simp

/-- A thread that is started by `spawn` waits, and it has a number of its own. -/
theorem spawn (name : String) (ref : ObjectRef) (time : Nat) (job : Job) :
    m.Proceeds (m.spawn name (some ref) time job).2 := by
  refine ⟨.single (.spawn name ref time job), .single (.spawn _ _ _ _ _ _), fun ids hm =>
    ⟨hm.toNumbered.spawn, ?_, ?_⟩⟩
  · have hfresh : m.scheduler.nextId ∉ ids ++ m.scheduler.waiting.map (·.1) := by
      intro hmem
      obtain ⟨t, ht, hid, -⟩ := hm.running _ hmem
      exact absurd hid (Nat.ne_of_lt (hm.fresh t ht))
    change (ids ++ (m.scheduler.waiting ++ [(m.scheduler.nextId, job)]).map (·.1)).Nodup
    rw [List.map_append, ← List.append_assoc, List.map_singleton]
    refine List.nodup_append.2 ⟨hm.distinct, List.nodup_singleton _, ?_⟩
    rintro id hid _ hnew rfl
    rw [List.mem_singleton.1 hnew] at hid
    exact hfresh hid
  · intro id hid
    change id ∈ ids ++ (m.scheduler.waiting ++ [(m.scheduler.nextId, job)]).map (·.1) at hid
    rw [List.map_append, ← List.append_assoc] at hid
    rw [tenures_spawn]
    rcases List.mem_append.1 hid with hid | hid
    · obtain ⟨t, ht, hrunning⟩ := hm.running id hid
      exact ⟨t, List.mem_append_left _ ht, hrunning⟩
    · rw [List.mem_singleton.1 hid]
      exact ⟨_, List.mem_append_right _ (List.mem_singleton.2 rfl), rfl, rfl⟩

theorem enter (g : Guard) : m.Proceeds (g.enter id m) := by
  cases g with
  | within s => cases s <;> exact .ofModify (fun _ => rfl) (fun _ => rfl) fun _ hdead => hdead
  | timed => exact .ofModify (fun _ => rfl) (fun _ => rfl) fun _ hdead => hdead

theorem leave (g : Guard) : m.Proceeds (g.leave id m) := by
  cases g with
  | within s => cases s <;> exact .ofModify (fun _ => rfl) (fun _ => rfl) fun _ hdead => hdead
  | timed => exact .ofModify (fun _ => rfl) (fun _ => rfl) fun _ hdead => hdead

theorem guard (g : Guard) (h : (g.enter id m).Proceeds m') : m.Proceeds (g.leave id m') :=
  ((enter g).trans h).trans (leave g)

end Proceeds

theorem Step.proceeds (hs : m.Step P o T Made m') : m.Proceeds m' := by
  cases hs with
  | context | unhit | log | called | newCell => exact .ofMarks rfl fun _ => rfl
  | newObject className => exact .ofMarks rfl fun _ => Heap.mark_newObject className
  | setMember => exact .ofMarks rfl fun _ => Heap.mark_modifyObject fun _ => rfl
  | store c path v | write id c path v =>
    exact .ofMarks rfl (Heap.assigned_storeAt m.heap c path v).mark
  | delegate call v heap scheduler hargs hi =>
    rcases Delegates.invoke_cases hi with
      ⟨-, rfl, rfl⟩ | ⟨-, ⟨rfl, rfl⟩ | ⟨rfl, cpu, hz, rfl⟩ | ⟨rfl, ref, cpu, rfl⟩⟩
    · exact .refl
    · exact .refl
    · exact .ofRests ⟨rfl, rfl, fun _ => rfl⟩ ⟨rfl, rfl, rfl, fun _ hdead => hdead⟩
    · exact .ofMarks rfl fun _ => Heap.mark_modifyObject fun _ => rfl
  | spawn id ref job => exact .spawn _ _ _ _
  | stop ref =>
    have hask : m.Proceeds { m with scheduler := m.scheduler.ask ref } :=
      .ofRests ⟨rfl, rfl, fun _ => rfl⟩ ⟨rfl, rfl, rfl, fun _ hdead => hdead⟩
    unfold Scheduler.stop
    split
    · exact hask.trans (.ofModify (fun _ => rfl) (fun _ => rfl) fun _ hdead => hdead)
    · exact hask

theorem ObeyStep.proceeds (hs : m.ObeyStep T m') : m.Proceeds m' := by
  cases hs with
  | yieldPoint => exact .ofModify (fun _ => rfl) (fun _ => rfl) fun _ hdead => hdead
  | _ => exact .ofRests ⟨rfl, rfl, fun _ => rfl⟩ ⟨rfl, rfl, rfl, fun _ hdead => hdead⟩

theorem Happens.proceeds (h : m.Happens P o T Made m') : m.Proceeds m' := by
  cases h with
  | step hs => exact hs.proceeds
  | obey hs => exact hs.proceeds
  | charge id duration =>
    exact .ofModify (fun _ => rfl) (fun _ => rfl) fun r hdead => Bool.or_eq_true_iff.2 (.inl hdead)
  | stepTo => exact .ofModify (fun _ => rfl) (fun _ => rfl) fun _ hdead => hdead
  | visit | report | unwound => exact .ofMarks rfl fun _ => rfl

theorem HostStep.proceeds (hs : m.HostStep o m') : m.Proceeds m' := by
  cases hs with
  | globals => exact .ofMarks rfl fun _ => rfl
  | release id due =>
    dsimp only [Scheduler.release]
    split <;> exact .ofModify (fun _ => rfl) (fun _ => rfl) fun _ hdead => hdead
  | die id => exact .ofModify (fun _ => rfl) (fun _ => rfl) fun _ _ => rfl

end Machine

/-- Every evaluation takes thread steps, and ends no thread. -/
def threadDrift (P : Program) : Drift P .all where
  Rel := Machine.Proceeds
  delegates := P.delegates_from_all
  refl := .refl
  trans := .trans
  moves _ h := h.proceeds
  guard g _ _ := .guard g

instance {P : Program} : (threadDrift P).effect.Hosts where
  step _ hs := ⟨trivial, hs.proceeds⟩
  swallow h := h

/-! ### Joining -/

namespace Machine.Pending

variable {m : Machine} {ids : List ThreadId} {id : ThreadId}

theorem nil (hm : m.Pending ids) : m.Pending [] where
  toNumbered := hm.toNumbered
  distinct := (List.nodup_append.1 hm.distinct).2.1
  running id hid := hm.running id (List.mem_append_right _ hid)

/-- A thread that has died goes on to count as running, but nobody waits for it any more. -/
theorem tail (hm : m.Pending (id :: ids)) : m.Pending ids where
  toNumbered := hm.toNumbered
  distinct := (List.nodup_cons.1 hm.distinct).2
  running id' hid' := hm.running id' (List.mem_cons_of_mem _ hid')

theorem takeWaiting (hm : m.Pending []) :
    Pending (m.scheduler.takeWaiting.1.map (·.1))
      { m with scheduler := m.scheduler.takeWaiting.2 } where
  toNumbered := ⟨hm.nodup, hm.fresh⟩
  distinct := by
    change List.Nodup (m.scheduler.waiting.map (·.1) ++ [])
    rw [List.append_nil]
    exact hm.distinct
  running id hid := by
    change id ∈ m.scheduler.waiting.map (·.1) ++ [] at hid
    rw [List.append_nil] at hid
    exact hm.running id hid

/-- A thread comes to its end, by `finish`. All the others that are to be joined have other numbers.
-/
theorem finish (hm : m.Pending (id :: ids)) (outcome : Outcome) :
    (m.finish id outcome).Pending ids where
  toNumbered := hm.toNumbered.finish
  distinct := (List.nodup_cons.1 hm.distinct).2
  running id' hid' := by
    obtain ⟨t, ht, hid, hrunning⟩ := hm.running id' (List.mem_cons_of_mem _ hid')
    refine ⟨t, ?_, hid, hrunning⟩
    rw [tenures_finish]
    refine List.mem_map.2 ⟨t, ht, if_neg ?_⟩
    rintro rfl
    exact (List.nodup_cons.1 hm.distinct).1 (hid ▸ hid')

end Machine.Pending

/-- Threads are joined: some are to be joined before, and some are still to be joined afterwards,
given the result. -/
def Eval.Settles {α : Type} (ids : List ThreadId) (rest : α → List ThreadId) (x : Eval α) : Prop :=
  ∀ m : Machine, m.Pending ids → m.ThreadSteps (x m).2 ∧ (x m).2.Pending [] ∧
    ∀ a, (x m).1 = .ok a → (x m).2.Pending (rest a)

namespace Eval.Settles

variable {α β : Type} {x : Eval α} {ids : List ThreadId} {id : ThreadId}

theorem proceeds (hx : ∀ m : Machine, m.Proceeds (x m).2) : x.Settles ids fun _ => ids :=
  fun m hm => ⟨(hx m).steps, ((hx m).pending ids hm).nil, fun _ _ => (hx m).pending ids hm⟩

theorem rests (hx : ∀ m : Machine, m.Rests (x m).2 ∧ (x m).2.scheduler.waiting =
    m.scheduler.waiting) :
    x.Settles ids fun _ => ids := by
  intro m hm
  have hpending := hm.rests (hx m).1 (hx m).2
  exact ⟨.single (.rest (hx m).1), hpending.nil, fun _ _ => hpending⟩

theorem bind {f : α → Eval β} {rest : α → List ThreadId} {rest' : β → List ThreadId}
    (hx : x.Settles ids rest) (hf : ∀ a, (f a).Settles (rest a) rest') :
    (x >>= f).Settles ids rest' := by
  intro m hm
  obtain ⟨hsteps, hnil, hpending⟩ := hx m hm
  rcases hrun : x m with ⟨r, m₁⟩
  rw [hrun] at hsteps hnil hpending
  cases r with
  | ok a =>
    rw [bind_of_ok hrun]
    obtain ⟨hsteps', hrest⟩ := hf a m₁ (hpending a rfl)
    exact ⟨hsteps.trans hsteps', hrest⟩
  | error halt =>
    rw [bind_of_error hrun]
    exact ⟨hsteps, hnil, nofun⟩

theorem takeWaiting :
    (Eval.schedule (·.takeWaiting)).Settles [] fun batch => batch.map (·.1) := by
  intro m hm
  have htaken := hm.takeWaiting
  refine ⟨.single (.rest ⟨rfl, rfl, fun _ => rfl⟩), htaken.nil, ?_⟩
  rintro batch ⟨⟩
  exact htaken

theorem finish (outcome : Outcome) :
    (Eval.change (·.finish id outcome)).Settles (id :: ids) fun _ => ids := by
  intro m hm
  have hended := hm.finish outcome
  exact ⟨.single (.finish id outcome (hm.running id List.mem_cons_self)), hended.nil,
    fun _ _ => hended⟩

theorem tail : (pure a : Eval α).Settles (id :: ids) fun _ => ids :=
  fun _ hm => ⟨.refl, hm.tail.nil, fun _ _ => hm.tail⟩

end Eval.Settles

section Join

variable {rounds : Nat} {body : ThreadId → Job → Nat → Eval Value}
  (hbody : ∀ (id : ThreadId) (job : Job) (m : Machine),
    m.Proceeds ((Engine.runThread rounds id job.timing (body id job)).outcomeOn id m).2)

include hbody

theorem settles_joinThread {id : ThreadId} {ids : List ThreadId} {job : Job} :
    (Engine.joinThread rounds body id job).Settles (id :: ids) fun _ => ids := by
  refine .bind (.proceeds (hbody id job)) fun result => ?_
  have htake : (Engine.takeOutcome id).Settles ids fun _ => ids := by
    refine .bind (.proceeds fun _ => .refl) fun thread => ?_
    refine .bind (.rests fun _ => ⟨.ofModify fun _ => rfl, rfl⟩) fun found => ?_
    exact .proceeds fun _ => .refl
  cases result with
  | none => exact .bind (x := pure ()) .tail fun _ => htake
  | some result => exact .bind (.finish result) fun _ => htake

theorem settles_joinThreads (batch : List (ThreadId × Job)) :
    (Engine.joinThreads rounds body batch).Settles (batch.map (·.1)) fun _ => [] := by
  induction batch with
  | nil => exact .proceeds fun _ => .refl
  | cons first rest ih =>
    refine .bind (settles_joinThread hbody) fun _ => ?_
    exact .bind ih fun _ => .proceeds fun _ => .refl

theorem settles_joinWaiting (n : Nat) :
    (Engine.joinWaiting rounds body n).Settles [] fun _ => [] := by
  induction n with
  | zero => exact .proceeds fun _ => .refl
  | succ n ih =>
    refine .bind .takeWaiting fun batch => ?_
    cases batch with
    | nil => exact .proceeds fun _ => .refl
    | cons first rest =>
      refine .bind (settles_joinThreads hbody (first :: rest)) fun _ => ?_
      exact .bind ih fun _ => .proceeds fun _ => .refl

end Join

theorem settles_joinAll (P : Program) (bound : Nat) :
    (P.engine bound).joinAll.Settles [] fun _ => [] := by
  refine settles_joinWaiting (fun id job m => ?_) _
  have L := (threadDrift P).leaves Origin.closed_all bound
  have hactivate : (threadDrift P).effect.Holds _ ((P.engine bound).activate id job.body) _ :=
    Effect.holds_activate L trivial job.body.from_all
  exact Drift.rel (Effect.holds_outcomeOn id (Effect.holds_runThread fun _ => hactivate)) m trivial

/-- Whatever a session evaluates, it takes `ThreadSteps`, and the threads that wait are running. -/
theorem Activity.settles (P : Program) (bound : Nat) (activity : Activity) {m : Machine}
    (hm : m.Pending []) :
    m.ThreadSteps (activity.after (P.engine bound) m) ∧
      (activity.after (P.engine bound) m).Pending [] := by
  have L := (threadDrift P).leaves Origin.closed_all bound
  cases activity with
  | initialise =>
    have hproceeds := Drift.rel (Effect.holds_initialise L P.model.from_all) m trivial
    exact ⟨hproceeds.steps, hproceeds.pending [] hm⟩
  | task t =>
    have hproceeds := Drift.rel (Effect.holds_task L trivial t.from_all) m trivial
    exact ⟨hproceeds.steps, hproceeds.pending [] hm⟩
  | joinAll =>
    obtain ⟨hsteps, hpending, -⟩ := settles_joinAll P bound m hm
    exact ⟨hsteps, hpending⟩

/-! ### Sessions -/

namespace Machine

variable {P : Program} {heap : Heap} {m m' : Machine}

/-- The machines of sessions, whatever is `evaluated` and however it ends. -/
inductive Session (P : Program) (heap : Heap) : Machine → Prop where
  /-- The heap may hold cells and objects already. -/
  | start : Session P heap (Machine.initial P heap)
  /-- Something is evaluated, or the threads are joined. -/
  | activity {m : Machine} (bound : Nat) (activity : Activity) (h : Session P heap m) :
    Session P heap (activity.after (P.engine bound) m)
  /-- The debugger is set up, or something is brought from outside. -/
  | host {m m' : Machine} (h : Session P heap m) (hrests : m.Rests m')
      (hwaiting : m'.scheduler.waiting = m.scheduler.waiting) : Session P heap m'

theorem objects_stateScopes (h : Heap) (modules : List ModuleDef) :
    (stateScopes h modules).2.objects = h.objects := by
  have hfields : ∀ (fields : List StateField) (h : Heap),
      (stateFields h fields).2.objects = h.objects := by
    intro fields
    induction fields with
    | nil => exact fun _ => rfl
    | cons f rest ih => exact fun h => ih _
  induction modules generalizing h with
  | nil => rfl
  | cons d rest ih =>
    unfold stateScopes
    split
    · exact ih h
    · exact (ih _).trans (hfields _ h)

theorem pending_initial (P : Program) (heap : Heap) : (initial P heap).Pending [] where
  nodup := List.nodup_singleton _
  fresh t ht := by
    rw [List.mem_singleton.1 ht]
    exact Nat.lt_succ_self _
  distinct := List.nodup_nil
  running _ hid := absurd hid List.not_mem_nil

theorem solo_initial (P : Program) (hheap : ∀ oid, heap.mark oid = none) :
    (initial P heap).Solo := by
  intro oid
  have hmark : (initial P heap).heap.mark oid = heap.mark oid := by
    cases oid with
    | zero => rfl
    | succ n =>
      have hobjects : (initial P heap).heap.objects = heap.objects := objects_stateScopes heap _
      rw [Heap.mark, Heap.mark, Heap.object?, Heap.object?, hobjects]
  rw [hmark, hheap oid]
  rfl

theorem Session.steps (h : m.Session P heap) : (initial P heap).ThreadSteps m ∧ m.Pending [] := by
  induction h with
  | start => exact ⟨.refl, pending_initial P heap⟩
  | activity bound activity _ ih =>
    obtain ⟨hsteps, hpending⟩ := activity.settles P bound ih.2
    exact ⟨ih.1.trans hsteps, hpending⟩
  | host _ hrests hwaiting ih => exact ⟨ih.1.tail (.rest hrests), ih.2.rests hrests hwaiting⟩

end Machine

/-! ### Starting objects -/

namespace Engine

variable {E : Engine} {ref : ObjectRef} {location : Location} {c : Context} {m : Machine}

theorem start_of_mark (hmark : (m.heap.mark ref.id).isSome = true) :
    E.start ref location c m =
      E.fail .alreadyStarted (ref.text ++ " already has a running thread") location
        (c.hold (.object ref)) m := by
  refine (bind_of_ok rfl).trans ?_
  dsimp only
  rw [Heap.thread?_eq_mark, if_pos hmark]

theorem start_plain {scope : ClassScope} {body : Stmt} (hmark : m.heap.mark ref.id = none)
    (hscope : m.globals.class? ref.className = some scope)
    (hthread : scope.definition.thread = some (.plain body)) :
    E.start ref location c m = (.ok (), (m.spawn ref.text (some ref) (m.scheduler.time c.thread)
      { timing := .plain, body := .statement ref body }).2) := by
  refine (bind_of_ok rfl).trans ?_
  dsimp only
  rw [Heap.thread?_eq_mark, hmark, if_neg (by decide)]
  refine (bind_of_ok rfl).trans ?_
  dsimp only
  rw [hscope, Option.bind_some, hthread]
  rfl

end Engine

/-- No object has more than one running thread, and its `mark` is the number of that thread, in
every state that threads can reach by taking turns in any order, and so in every state of a
`Session`, if every thread was started while its object had none. A new thread for an object that
has one already breaks it at once. An object with a running thread is not started again: that fails.
A thread with a body of its own is always started while its object has none, if the object is there;
but a periodic or sporadic thread need not be. -/
theorem one_thread_per_object (P : Program) (heap : Heap) (hheap : ∀ oid, heap.mark oid = none) :
    (∀ m, (Machine.initial P heap).ThreadSteps m → m.Alone →
      ∀ oid, m.threadsOf oid = (m.heap.mark oid).toList) ∧
    (∀ m, m.Session P heap → (Machine.initial P heap).ThreadSteps m) ∧
    (∀ (m : Machine) name ref time job,
      (m.spawn name (some ref) time job).2.tenures =
        m.tenures ++ [⟨m.scheduler.nextId, some ref.id, true, m.isFree ref⟩] ∧
      (m.Solo → ((m.spawn name (some ref) time job).2.Solo ↔ m.isFree ref = true))) ∧
    (∀ (E : Engine) (ref : ObjectRef) (location : Location) (c : Context) (m : Machine), m.Solo →
      m.threadsOf ref.id ≠ [] →
      E.start ref location c m =
        E.fail .alreadyStarted (ref.text ++ " already has a running thread") location
          (c.hold (.object ref)) m) ∧
    ∀ (E : Engine) (ref : ObjectRef) (location : Location) (c : Context) (m : Machine)
      (scope : ClassScope) (body : Stmt), m.isFree ref = true →
      m.globals.class? ref.className = some scope → scope.definition.thread = some (.plain body) →
      (E.start ref location c m).2.tenures =
        m.tenures ++ [⟨m.scheduler.nextId, some ref.id, true, true⟩] := by
  refine ⟨fun m hsteps halone => ?_, fun m h => h.steps.1, fun m name ref time job => ?_,
    fun E ref location c m hm hthreads =>
      ?_, fun E ref location c m scope body hfree hscope hbody => ?_⟩
  · have hnumbered := (Machine.pending_initial P heap).toNumbered
    exact hsteps.solo hnumbered (Machine.solo_initial P hheap) halone
  · exact ⟨Machine.tenures_spawn, Machine.solo_spawn_iff⟩
  · refine Engine.start_of_mark ?_
    rw [hm ref.id] at hthreads
    cases hmark : m.heap.mark ref.id with
    | none =>
      rw [hmark] at hthreads
      exact absurd rfl hthreads
    | some id => rfl
  · rw [Engine.start_plain (Machine.isFree_iff.1 hfree).2 hscope hbody, Machine.tenures_spawn,
      hfree]

def towerName (text : String) : Name :=
  { module := "Tower", text }

/-- A bell that is rung periodically. How often, the tower knows. -/
def bellClass : ClassDef :=
  let zero := Expr.onLine 1 (.literal (.int 0))
  { name := "Bell", location := .onLine 1
    instanceVars := [], values := [], functions := [], invariants := []
    operations := [.plain "Bell" "ring" (.onLine 2 .skip)]
    thread := some (.periodic (.onLine 1 (.apply (.onLine 1 (.name (towerName "pace"))) [])) zero
      zero
      zero { module := "Bell", text := "ring" }) }

def towerStart : Stmt :=
  .onLine 3 (.start (.onLine 3 (.name (towerName "bell"))))

/-- The pace of the bell. Whoever asks first also starts the bell. -/
def towerPace : OperationDef :=
  let begin : Stmt := .onLine 5 (.block []
    [.onLine 6 (.assign ⟨.name (towerName "begun"), .onLine 6 (.literal (.bool true)), .onLine 6⟩),
     towerStart])
  let body : List Stmt :=
    [.onLine 4 (.cond (.onLine 4 (.name (towerName "begun"))) (.onLine 4 .skip) [] (some begin)),
     .onLine 7 (.return (some (.onLine 7 (.literal (.int 10)))))]
  { OperationDef.plain "Tower" "pace" (.onLine 4 (.block [] body)) with result := .unknown }

/-- A tower with a bell. Somebody may have asked for the pace already. -/
def towerProgram (begun : Bool) : Program :=
  { settings := { timeLimit := some 10 }
    model := {
      classes := [bellClass]
      modules := [{
        name := "Tower", location := .onLine 8, values := [], functions := []
        operations := [towerPace, .plain "Tower" "open" towerStart]
        state := some { name := "S", location := .onLine 8, fields := [
          { name := towerName "bell", ty := .unknown, init := some (.onLine 8 (.new "Bell" [])) },
          { name := towerName "begun", ty := .bool
            init := some (.onLine 8 (.literal (.bool begun))) }] } }] } }

def towerOpen : Entry :=
  .call "Tower" "open" []

def towerClosed (begun : Bool) : Machine :=
  Activity.initialise.after ((towerProgram begun).engine 20)
    (Machine.initial (towerProgram begun) {})

def towerMachine (begun : Bool) : Machine :=
  (Activity.task (.entry towerOpen)).after ((towerProgram begun).engine 20) (towerClosed begun)

theorem towerMachine_session (begun : Bool) :
    (towerMachine begun).Session (towerProgram begun) {} := by
  unfold towerMachine towerClosed
  exact .activity 20 (.task (.entry towerOpen)) (.activity 20 .initialise .start)

/-- In the `towerMachine` where somebody has asked already, the bell has one thread. -/
theorem one_thread_per_object_tower :
    (∀ oid, Heap.mark {} oid = none) ∧ (towerMachine true).Alone ∧
      (towerMachine true).threadsOf 1 = [2] ∧
      ∀ oid, (towerMachine true).threadsOf oid = ((towerMachine true).heap.mark oid).toList := by
  have hheap : ∀ oid, Heap.mark {} oid = none := by
    intro oid
    cases oid <;> rfl
  have halone : (towerMachine true).Alone := by
    unfold Machine.Alone
    decide +kernel
  obtain ⟨hsolo, hsession, -⟩ := one_thread_per_object (towerProgram true) {} hheap
  exact ⟨hheap, halone, by decide +kernel,
    hsolo _ (hsession _ (towerMachine_session true)) halone⟩

/-- Otherwise it has two `threadsOf` it. The object is checked, then it is started while the pace is
evaluated, and then it is started once more. -/
theorem two_threads_of_one_object :
    (towerMachine false).Session (towerProgram false) {} ∧
      (towerOpen.run ((towerProgram false).engine 20) (towerClosed false)).1.isOk = true ∧
      (towerMachine false).threadsOf 1 = [2, 3] ∧ (towerMachine false).heap.mark 1 = some 3 := by
  refine ⟨towerMachine_session false, ?_⟩
  decide +kernel

end Animator

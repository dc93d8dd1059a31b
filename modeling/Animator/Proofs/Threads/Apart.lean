import Animator.Proofs.Threads.Session

/-!
# What threads do to each other

All threads are kept in one table. An evaluation works on the record of its own thread: it lets time
pass, enters and leaves sections, counts turns and steps. It has two ways to reach other threads. It
can ask the thread of an object to stop, and it can start the thread of an object.

`Scheduler.Spares` says that nothing else has happened to other threads, and which objects were the
targets of a stop. Everything that an evaluation consists of spares other threads
(`Machine.Step.spares`), and so do evaluations (`spareDrift`). A thread that is started has the
clock of the thread that starts it, and nothing is set in its record yet (`Engine.start_record`).
`threads_keep_apart` puts this together.
-/

namespace Animator

variable {ref : ObjectRef} {location : Location}

namespace ThreadRecord

def fresh (id : ThreadId) (name : String) (cpu : Nat) (object : Option ObjectRef) (alone : Bool)
    (clock : Nat) : ThreadRecord :=
  { thread := { id, name, cpu }, object, alone, clock }

/-- A record before and after another thread was at work. Some objects were the targets of a stop.
-/
structure Undisturbed (targets : List ObjectRef) (r r' : ThreadRecord) : Prop where
  /-- Nothing but the request to stop has changed. -/
  same : r' = { r with thread := { r.thread with stopRequested := r'.thread.stopRequested } }
  /-- A request to stop is not taken back. -/
  kept : r.thread.stopRequested = true → r'.thread.stopRequested = true
  /-- Only the thread of a target is `asked` to stop. -/
  asked : r'.thread.stopRequested = true → r.thread.stopRequested = true ∨
    ∃ ref ∈ targets, r.object.any (·.id == ref.id) = true

namespace Undisturbed

variable {targets later : List ObjectRef} {r r₁ r₂ : ThreadRecord}

theorem refl : r.Undisturbed targets r :=
  ⟨rfl, fun h => h, .inl⟩

theorem trans (h : r.Undisturbed targets r₁) (h' : r₁.Undisturbed later r₂) :
    r.Undisturbed (later ++ targets) r₂ where
  same := by
    rw [h'.same, h.same]
  kept hr := h'.kept (h.kept hr)
  asked hr₂ := by
    rcases h'.asked hr₂ with hr₁ | ⟨ref, href, hobject⟩
    · refine (h.asked hr₁).imp_right ?_
      rintro ⟨ref, href, hobject⟩
      exact ⟨ref, List.mem_append_right _ href, hobject⟩
    · -- The object of a thread stays the same.
      rw [h.same] at hobject
      exact .inr ⟨ref, List.mem_append_left _ href, hobject⟩

end Undisturbed

end ThreadRecord

namespace Scheduler

/-- What a thread has done to the others: some objects were the targets of a stop, and some threads
were started. -/
structure Spares (t : ThreadId) (targets : List ObjectRef) (s s' : Scheduler) : Prop where
  asked : s'.asked = targets ++ s.asked
  stays : (s.record? t).isSome = true → (s'.record? t).isSome = true
  known : ∀ id r, id ≠ t → s.record? id = some r →
    ∃ r', s'.record? id = some r' ∧ r.Undisturbed targets r'
  new : ∀ id r', id ≠ t → s.record? id = none → s'.record? id = some r' →
    ∃ name cpu object alone clock,
      (ThreadRecord.fresh id name cpu object alone clock).Undisturbed targets r'

theorem record?_spawn {s : Scheduler} {name : String} {cpu : Nat} {object : Option ObjectRef}
    {alone : Bool} {clock : Nat} {job : Job} (id : ThreadId) :
    (s.spawn name cpu object alone clock job).2.record? id =
      (s.record? id).or (if s.nextId = id then
        some (ThreadRecord.fresh s.nextId name cpu object alone clock) else none) := by
  simp only [record?, Scheduler.spawn, List.find?_append, List.find?_singleton, beq_iff_eq]
  rfl

namespace Spares

variable {t id : ThreadId} {targets later : List ObjectRef} {s s₁ s' : Scheduler}

theorem has (h : s.Spares t targets s') (hid : (s.record? id).isSome = true) :
    (s'.record? id).isSome = true := by
  by_cases hsame : id = t
  · exact hsame ▸ h.stays (hsame ▸ hid)
  · obtain ⟨r, hr⟩ := Option.isSome_iff_exists.1 hid
    obtain ⟨r', hr', -⟩ := h.known id r hsame hr
    exact Option.isSome_iff_exists.2 ⟨r', hr'⟩

theorem ofRecords (hrecords : s'.records = s.records) (hasked : s'.asked = s.asked) :
    s.Spares t [] s' := by
  have hsame : ∀ id, s'.record? id = s.record? id := fun id => by rw [record?, record?, hrecords]
  refine ⟨hasked, fun ht => (hsame t).symm ▸ ht, fun id r _ hr => ⟨r, (hsame id).trans hr, .refl⟩,
    fun id r' _ hnone hr' => ?_⟩
  rw [hsame, hnone] at hr'
  cases hr'

theorem refl : s.Spares t [] s :=
  .ofRecords rfl rfl

/-- What spares the other threads in two parts spares them altogether. -/
theorem trans (h : s.Spares t targets s₁) (h' : s₁.Spares t later s') :
    s.Spares t (later ++ targets) s' where
  asked := by rw [h'.asked, h.asked, List.append_assoc]
  stays ht := h'.stays (h.stays ht)
  known id r hid hr := by
    obtain ⟨r₁, hr₁, hfirst⟩ := h.known id r hid hr
    obtain ⟨r', hr', hthen⟩ := h'.known id r₁ hid hr₁
    exact ⟨r', hr', hfirst.trans hthen⟩
  new id r' hid hnone hr' := by
    -- The thread was started in the first part or in the second one.
    cases hr₁ : s₁.record? id with
    | none =>
      obtain ⟨name, cpu, object, alone, clock, hborn⟩ := h'.new id r' hid hr₁ hr'
      exact ⟨name, cpu, object, alone, clock, ThreadRecord.Undisturbed.refl.trans hborn⟩
    | some r₁ =>
      obtain ⟨name, cpu, object, alone, clock, hborn⟩ := h.new id r₁ hid hnone hr₁
      obtain ⟨r₂, hr₂, hthen⟩ := h'.known id r₁ hid hr₁
      obtain rfl : r₂ = r' := Option.some.inj (hr₂.symm.trans hr')
      exact ⟨name, cpu, object, alone, clock, hborn.trans hthen⟩

theorem own {f : ThreadRecord → ThreadRecord} (hf : ∀ r, (f r).thread.id = r.thread.id) :
    s.Spares t [] (s.modify t f) := by
  -- The number stays, so the records of other numbers are still found.
  have hsame : ∀ id, id ≠ t → (s.modify t f).record? id = s.record? id := by
    intro id hid
    rw [record?_modify hf]
    cases hr : s.record? id with
    | none => rfl
    | some r =>
      have hnumber : r.thread.id = id := by simpa using List.find?_some hr
      simp [hnumber, hid]
  refine ⟨rfl, fun ht => ?_, fun id r hid hr => ⟨r, (hsame id hid).trans hr, .refl⟩,
    fun id r' hid hnone hr' => ?_⟩
  · rw [record?_modify hf, Option.isSome_map]
    exact ht
  · rw [hsame id hid, hnone] at hr'
    cases hr'

theorem spawn (name : String) (cpu : Nat) (object : Option ObjectRef) (alone : Bool) (clock : Nat)
    (job : Job) : s.Spares t [] (s.spawn name cpu object alone clock job).2 := by
  refine ⟨rfl, fun ht => ?_, fun id r _ hr => ⟨r, ?_, .refl⟩, fun id r' _ hnone hr' => ?_⟩
  · rw [record?_spawn, Option.isSome_or, ht, Bool.true_or]
  · rw [record?_spawn, hr, Option.some_or]
  · rw [record?_spawn, hnone, Option.none_or] at hr'
    split at hr'
    · next hid =>
      obtain rfl := Option.some.inj hr'
      exact ⟨name, cpu, object, alone, clock, hid ▸ .refl⟩
    · cases hr'

/-- The thread of an object is asked to stop, by `stop`. No other thread has its number. -/
theorem stop (hids : (s.records.map (·.thread.id)).Nodup) (ref : ObjectRef) :
    s.Spares t [ref] (s.stop ref).2 := by
  unfold Scheduler.stop
  split
  · next r₀ hfound =>
    have hrecord : ∀ id, ((s.ask ref).modify r₀.thread.id
        fun r => { r with thread := r.thread.requestStop }).record? id = _ :=
      fun _ => record?_modify fun _ => rfl
    refine ⟨rfl, fun ht => ?_, fun id r _ hr => ?_, fun id r' _ hnone hr' => ?_⟩
    · rw [hrecord t, Option.isSome_map]
      exact ht
    · refine ⟨_, (hrecord id).trans (congrArg _ hr), ?_⟩
      dsimp only
      split
      · next hid =>
        -- The record that was found is the one with this number.
        obtain rfl : r = r₀ := List.inj_on_of_nodup_map hids (List.mem_of_find?_eq_some hr)
          (List.mem_of_find?_eq_some hfound) (beq_iff_eq.1 hid)
        have hfits := List.find?_some hfound
        have htarget := (Bool.and_eq_true_iff.1 hfits).2
        exact ⟨rfl, fun _ => rfl, fun _ => .inr ⟨ref, List.mem_singleton_self ref, htarget⟩⟩
      · exact .refl
    · rw [hrecord id, show (s.ask ref).record? id = none from hnone] at hr'
      cases hr'
  · refine ⟨rfl, fun ht => ht, fun id r _ hr => ⟨r, hr, .refl⟩, fun id r' _ hnone hr' => ?_⟩
    cases hnone.symm.trans hr'

end Spares

end Scheduler

/-! ### Evaluations -/

namespace Machine

variable {P : Program} {o : Origin} {t id : ThreadId} {Made : ObjectRef → Prop} {m m' : Machine}

theorem Numbered.modifyRecord {f : ThreadRecord → ThreadRecord} (hm : m.Numbered)
    (hf : ∀ r, (f r).tenure = r.tenure) : (m.modifyRecord id f).Numbered :=
  ThreadStep.numbered (.rest (.ofModify hf)) hm

theorem Numbered.record?_nextId (hm : m.Numbered) :
    m.scheduler.record? m.scheduler.nextId = none := by
  refine List.find?_eq_none.2 fun r hr hid => ?_
  have hlt := hm.fresh r.tenure (List.mem_map_of_mem hr)
  exact absurd (beq_iff_eq.1 hid) (Nat.ne_of_lt hlt)

theorem Step.spares (hs : m.Step P o (· = t) Made m') (hm : m.Numbered) :
    ∃ targets, m.scheduler.Spares t targets m'.scheduler := by
  cases hs with
  | delegate call v heap scheduler hargs hi =>
    -- Deploying objects and defining processors changes no thread.
    refine ⟨[], ?_⟩
    rcases Delegates.invoke_cases hi with ⟨-, -, rfl⟩ | ⟨-, ⟨-, rfl⟩ | ⟨-, cpu, hz, rfl⟩ | ⟨rfl, -⟩⟩
    all_goals exact .ofRecords rfl rfl
  | spawn id ref job hid hjob => exact ⟨[], .spawn _ _ _ _ _ _⟩
  | stop ref =>
    have hids := hm.nodup
    rw [tenures, List.map_map] at hids
    exact ⟨[ref], .stop hids ref⟩
  | _ => exact ⟨[], .refl⟩

theorem Happens.spares (h : m.Happens P o (· = t) Made m') (hm : m.Numbered) :
    ∃ targets, m.scheduler.Spares t targets m'.scheduler := by
  cases h with
  | step hs => exact hs.spares hm
  | obey hs =>
    cases hs with
    | yieldPoint id hid hturn => exact ⟨[], hid ▸ .own fun _ => rfl⟩
    | _ => exact ⟨[], .ofRecords rfl rfl⟩
  | charge id _ hid | stepTo id _ hid => exact ⟨[], hid ▸ .own fun _ => rfl⟩
  | _ => exact ⟨[], .refl⟩

end Machine

/-- Every evaluation spares the threads that it does not run on. -/
def spareDrift (P : Program) (t : ThreadId) : Drift P .all (· = t) where
  Inv := Machine.Numbered
  Rel m m' := ∃ targets, m.scheduler.Spares t targets m'.scheduler
  delegates := P.delegates_from_all
  refl := ⟨[], .refl⟩
  trans := by
    rintro m m₁ m₂ ⟨targets, h⟩ ⟨later, h'⟩
    exact ⟨later ++ targets, h.trans h'⟩
  keeps hm h := h.proceeds.steps.numbered hm
  moves hm h := h.spares hm
  enter g hm := (Machine.Proceeds.enter g).steps.numbered hm
  leave g hm := (Machine.Proceeds.leave g).steps.numbered hm
  guard := by
    rintro m m' id g rfl - ⟨targets, h⟩
    refine ⟨[] ++ (targets ++ []), ?_⟩
    rw [g.enter_eq] at h
    rw [g.leave_eq]
    have henter : m.scheduler.Spares id [] (m.modifyRecord id g.switchOn).scheduler :=
      .own fun r => (g.keeps_switchOn r).1
    have hleave : m'.scheduler.Spares id [] (m'.modifyRecord id g.switchOff).scheduler :=
      .own fun r => (g.keeps_switchOff r).1
    exact (henter.trans h).trans hleave

/-- What the evaluation of a part on a thread does to the other threads (`Spares`). -/
theorem spareDrift.spares {P : Program} {t : ThreadId} {m : Machine} {α : Type} {Q : α → α → Prop}
    {x : Eval α} (hx : (spareDrift P t).effect.Holds Q x x) (hm : m.Numbered) :
    (x m).2.Numbered ∧ ∃ targets, m.scheduler.Spares t targets (x m).2.scheduler :=
  ⟨(hx m m.from_all hm).inv, (hx m m.from_all hm).rel⟩

/-! ### Starting threads -/

/-- A thread that is started is registered once, by `spawn`, after everything else that starting
evaluates. -/
theorem Engine.start_eq_ok {E : Engine} {c : Context} {m m' : Machine}
    (h : E.start ref location c m = (.ok (), m')) :
    ∃ (definition : ThreadDef) (job : Job) (m₁ : Machine),
      (m.globals.class? ref.className).bind (·.definition.thread) = some definition ∧
      E.job ref location (c.hold (.object ref)) definition m = (.ok job, m₁) ∧
      m' = (m₁.spawn ref.text (some ref) (m₁.scheduler.time c.thread) job).2 := by
  obtain ⟨heap, m₀, hheap, h⟩ := exists_of_bind_eq_ok h
  cases hheap
  split at h
  · exact absurd h fail_ne_ok
  · obtain ⟨scope, m₀, hscope, h⟩ := exists_of_bind_eq_ok h
    cases hscope
    dsimp only at h
    cases hdefinition : (m.globals.class? ref.className).bind (·.definition.thread) with
    | none =>
      rw [hdefinition] at h
      exact absurd h fail_ne_ok
    | some definition =>
      rw [hdefinition] at h
      obtain ⟨job, m₁, hjob, h⟩ := exists_of_bind_eq_ok h
      obtain ⟨limit, m₂, hlimit, h⟩ := exists_of_bind_eq_ok h
      cases hlimit
      split at h
      · exact absurd h fail_ne_ok
      · cases h
        exact ⟨definition, job, m₁, rfl, hjob, rfl⟩

/-- A thread that is started has a number of its own, and the clock of the thread that starts it.
Nothing else is set in its record, by `fresh`. -/
theorem Engine.start_record {P : Program} {bound : Nat} {c : Context} {m m' : Machine}
    (hm : m.Numbered) (ht : m.Has c.thread)
    (h : (P.engine bound).start ref location c m = (.ok (), m')) :
    ∃ id name cpu alone, m.scheduler.record? id = none ∧ m'.scheduler.record? id =
      some (.fresh id name cpu (some ref) alone (m'.scheduler.time c.thread)) := by
  obtain ⟨definition, job, m₁, hdefinition, hjob, rfl⟩ := start_eq_ok h
  obtain ⟨scope, -, hthread⟩ := Option.bind_eq_some_iff.1 hdefinition
  -- What is evaluated before the thread is registered spares the threads that are there.
  have hholds : (spareDrift P c.thread).effect.Holds _
      ((P.engine bound).job ref location (c.hold (.object ref)) definition) _ :=
    (Effect.logic ((spareDrift P c.thread).leaves Origin.closed_all bound)).job
      ⟨rfl, (c.hold (.object ref)).from_all, rfl⟩
      ((Origin.class_all scope.definition).thread definition hthread)
  obtain ⟨hm₁, targets, hspares⟩ := spareDrift.spares hholds hm
  rw [hjob] at hm₁ hspares
  -- Its number is new, also for the threads that were there in the beginning.
  have hnew : m₁.scheduler.record? m₁.scheduler.nextId = none := hm₁.record?_nextId
  refine ⟨m₁.scheduler.nextId, ref.text, (m₁.heap.cpu? ref).getD 0, m₁.isFree ref, ?_, ?_⟩
  · cases hr : m.scheduler.record? m₁.scheduler.nextId with
    | none => rfl
    | some r =>
      have hhas := hspares.has (Option.isSome_iff_exists.2 ⟨r, hr⟩)
      rw [hnew] at hhas
      cases hhas
  · have htime : (m₁.spawn ref.text (some ref) (m₁.scheduler.time c.thread) job).2.scheduler.time
        c.thread = m₁.scheduler.time c.thread := by
      rw [Scheduler.time, Machine.record?_spawn (hspares.has ht)]
      rfl
    rw [htime]
    refine (Scheduler.record?_spawn _).trans ?_
    rw [hnew, Option.none_or, if_pos rfl]
    rfl

/-- Nothing is evaluated before a thread with a body of its own is registered. -/
theorem Engine.time_start_plain {E : Engine} {c : Context} {m m' : Machine} {body : Stmt}
    (ht : m.Has c.thread)
    (hplain : (m.globals.class? ref.className).bind (·.definition.thread) = some (.plain body))
    (h : E.start ref location c m = (.ok (), m')) :
    m'.scheduler.time c.thread = m.scheduler.time c.thread := by
  obtain ⟨definition, job, m₁, hdefinition, hjob, rfl⟩ := start_eq_ok h
  obtain rfl := Option.some.inj (hplain.symm.trans hdefinition)
  cases hjob
  rw [Scheduler.time, Machine.record?_spawn ht]
  rfl

/-- Threads do not disturb each other. Whatever is evaluated on a thread, the record of every other
thread stays as it is: its clock, its turns, the sections it is in, its steps, its processor and how
it ended. Only a request to stop may be added, if its object was the target of a stop. A thread that
is started begins with the clock that the thread which starts it has at that moment, and with
nothing else set; a thread with a body of its own is registered before anything else is evaluated.

Numbers of threads are given once, as in every session (`Machine.Session.steps`). -/
theorem threads_keep_apart (P : Program) (bound : Nat) (c : Context) (m : Machine)
    (hm : m.Numbered) (ht : m.Has c.thread) :
    (∀ piece : Piece, ∃ targets,
      m.scheduler.Spares c.thread targets (piece.run (P.engine bound) c m).2.scheduler) ∧
    ∀ (ref : ObjectRef) (location : Location) (m' : Machine),
      (P.engine bound).start ref location c m = (.ok (), m') →
      (∃ id name cpu alone, m.scheduler.record? id = none ∧ m'.scheduler.record? id =
        some (.fresh id name cpu (some ref) alone (m'.scheduler.time c.thread))) ∧
      ∀ body, (m.globals.class? ref.className).bind (·.definition.thread) = some (.plain body) →
        m'.scheduler.time c.thread = m.scheduler.time c.thread := by
  refine ⟨fun piece => ?_, fun ref location m' h =>
    ⟨Engine.start_record hm ht h, fun body hplain => ?_⟩⟩
  · have hholds := (Effect.logic ((spareDrift P c.thread).leaves Origin.closed_all bound)).piece
        piece
      ⟨rfl, c.from_all, rfl⟩
    exact (spareDrift.spares hholds hm).2
  · exact Engine.time_start_plain ht hplain h

def towerContext : Context :=
  .binding [(towerName "bell", .object ⟨1, "Bell"⟩)]

def towerStop : Stmt :=
  .onLine 9 (.stop (.onLine 9 (.name (towerName "bell"))))

def towerLater : Machine :=
  (towerClosed true).modifyRecord mainThread fun r => { r with clock := 5 }

def towerStarted : Machine :=
  (((towerProgram true).engine 20).start ⟨1, "Bell"⟩ (.onLine 3) towerContext towerLater).2

def towerStopped : Machine :=
  ((Piece.node (.stmt towerStop)).run ((towerProgram true).engine 20) towerContext
    (towerMachine true)).2

/-- The bell is started with the `clock` of the main thread. When it is stopped, its thread has a
request and is otherwise as it was. -/
theorem threads_keep_apart_tower :
    (towerStarted.scheduler.record? 2).map (·.clock) = some 5 ∧
      (∃ id name cpu alone, towerLater.scheduler.record? id = none ∧
        towerStarted.scheduler.record? id = some (.fresh id name cpu (some ⟨1, "Bell"⟩) alone
          (towerStarted.scheduler.time towerContext.thread))) ∧
      ((towerMachine true).thread 2).stopRequested = false ∧
      (towerStopped.thread 2).stopRequested = true ∧
      ∃ targets, (towerMachine true).scheduler.Spares towerContext.thread targets
        towerStopped.scheduler := by
  have hnumbered : (towerMachine true).Numbered := (towerMachine_session true).steps.2.toNumbered
  have hlater : towerLater.Numbered := by
    have hclosed : (towerClosed true).Session (towerProgram true) {} :=
      .activity 20 .initialise .start
    exact hclosed.steps.2.toNumbered.modifyRecord fun _ => rfl
  have hhas : (towerMachine true).Has towerContext.thread ∧ towerLater.Has towerContext.thread := by
    decide +kernel
  have hstart : ((towerProgram true).engine 20).start ⟨1, "Bell"⟩ (.onLine 3) towerContext
      towerLater =
      (.ok (), towerStarted) :=
    eq_ok_of_toOption (by decide +kernel)
  obtain ⟨-, hstarted⟩ := threads_keep_apart (towerProgram true) 20 towerContext towerLater hlater
    hhas.2
  obtain ⟨hspares, -⟩ := threads_keep_apart (towerProgram true) 20 towerContext (towerMachine true)
    hnumbered hhas.1
  refine ⟨by decide +kernel, (hstarted _ _ _ hstart).1, by decide +kernel, by decide +kernel, ?_⟩
  unfold towerStopped
  exact hspares (.node (.stmt towerStop))

end Animator

import Animator.Proofs.Effect.Basic

/-!
# What steps leave alone

The steps that constructs are made of do not touch the debugger: its breakpoints, its stops and its
history stay as they are (`Machine.Step.unseen`). They leave alone also what the scheduler knows of
a thread, except that they may ask it to stop (`Machine.Step.record?`).

A guard is on while a thread is in a section or in a statement with a fixed cost. `Nesting` says
which ones are on, and how switching a guard on and off changes that (`Guard.nesting_enter`,
`Guard.nesting_leave`).
-/

namespace Animator

/-- How many sections of each kind a thread is in, and whether it is in a statement with a fixed
cost. -/
structure Nesting where
  atomic : Nat
  pure : Nat
  debugging : Nat
  timed : Bool
  deriving DecidableEq

namespace Nesting

def enter (n : Nesting) : Guard → Nesting
  | .within .atomic => { n with atomic := n.atomic + 1 }
  | .within .pure => { n with pure := n.pure + 1 }
  | .within .debugging => { n with debugging := n.debugging + 1 }
  | .timed => { n with timed := true }

def leave (n : Nesting) : Guard → Nesting
  | .within .atomic => { n with atomic := n.atomic - 1 }
  | .within .pure => { n with pure := n.pure - 1 }
  | .within .debugging => { n with debugging := n.debugging - 1 }
  | .timed => { n with timed := false }

theorem leave_enter {n : Nesting} {g : Guard} (hg : g = .timed → n.timed = false) :
    (n.enter g).leave g = n := by
  cases g with
  | within s => cases s <;> rfl
  | timed =>
    cases n
    exact congrArg _ (hg rfl).symm

end Nesting

def ThreadRecord.nesting (r : ThreadRecord) : Nesting :=
  ⟨r.thread.atomicDepth, r.thread.pureDepth, r.thread.debugDepth, r.timed⟩

def Machine.nesting (m : Machine) (id : ThreadId) : Nesting :=
  ⟨(m.thread id).atomicDepth, (m.thread id).pureDepth, (m.thread id).debugDepth,
    m.scheduler.isTimed id⟩

def Machine.Has (m : Machine) (id : ThreadId) : Prop :=
  (m.scheduler.record? id).isSome = true

instance (m : Machine) (id : ThreadId) : Decidable (m.Has id) :=
  inferInstanceAs (Decidable (_ = true))

namespace Scheduler

variable {s : Scheduler} {id id' : ThreadId} {f : ThreadRecord → ThreadRecord}

theorem time_modify (hf : ∀ r, (f r).thread.id = r.thread.id)
    (hclock : ∀ r, (f r).clock = r.clock) : (s.modify id f).time id' = s.time id' := by
  unfold time
  rw [record?_modify hf]
  cases s.record? id' with
  | none => rfl
  | some r =>
    simp only [Option.map_some]
    split
    · exact hclock r
    · rfl

end Scheduler

namespace Machine

variable {m m' : Machine} {id id' : ThreadId} {f : ThreadRecord → ThreadRecord}

def modifyRecord (m : Machine) (id : ThreadId) (f : ThreadRecord → ThreadRecord) : Machine :=
  { m with scheduler := m.scheduler.modify id f }

theorem Has.modifyRecord (hm : m.Has id') (hf : ∀ r, (f r).thread.id = r.thread.id) :
    (m.modifyRecord id f).Has id' := by
  unfold Has Machine.modifyRecord
  rw [Scheduler.record?_modify hf, Option.isSome_map]
  exact hm

theorem thread_modifyRecord {β : Type} (g : Thread → β) (hf : ∀ r, (f r).thread.id = r.thread.id)
    (hg : ∀ r, g (f r).thread = g r.thread) :
    g ((m.modifyRecord id f).thread id') = g (m.thread id') := by
  unfold thread Machine.modifyRecord
  dsimp only
  rw [Scheduler.record?_modify hf]
  cases m.scheduler.record? id' with
  | none => rfl
  | some r =>
    simp only [Option.map_some]
    split
    · exact hg r
    · rfl

theorem record?_spawn (hm : m.Has id) {name : String} {object : Option ObjectRef} {time : Nat}
    {job : Job} :
    (m.spawn name object time job).2.scheduler.record? id = m.scheduler.record? id := by
  obtain ⟨r, hr⟩ := Option.isSome_iff_exists.1 hm
  rw [hr]
  unfold Scheduler.record? at hr
  simp only [Scheduler.record?, spawn, Scheduler.spawn, List.find?_append, hr, Option.some_or]

/-- What the debugger has is the same. -/
structure Unseen (m m' : Machine) : Prop where
  breakpoints : m'.breakpoints = m.breakpoints
  link : m'.link = m.link
  stops : m'.stops = m.stops
  interrupt : m'.scheduler.interrupt = m.scheduler.interrupt
  history : m'.history = m.history

/-- What the debugger has and what it knows of a thread is the same. -/
structure Frame (id : ThreadId) (m m' : Machine) : Prop extends m.Unseen m' where
  has : m'.Has id
  step : (m'.thread id).step = (m.thread id).step

theorem Frame.refl (hm : m.Has id) : m.Frame id m :=
  ⟨⟨rfl, rfl, rfl, rfl, rfl⟩, hm, rfl⟩

theorem Frame.modifyRecord (hm : m.Has id') (hid : ∀ r, (f r).thread.id = r.thread.id)
    (hstep : ∀ r, (f r).thread.step = r.thread.step) : m.Frame id' (m.modifyRecord id f) :=
  ⟨⟨rfl, rfl, rfl, rfl, rfl⟩, hm.modifyRecord hid, thread_modifyRecord (·.step) hid hstep⟩

/-- How many evaluations for the debugger a thread is in. -/
def depth (m : Machine) (id : ThreadId) : Nat :=
  (m.thread id).debugDepth

theorem nesting_of_record? {r : ThreadRecord} (hr : m.scheduler.record? id = some r) :
    m.nesting id = r.nesting := by
  simp only [nesting, thread, Scheduler.isTimed, hr, ThreadRecord.nesting]

theorem record?_modifyRecord (id : ThreadId) {r : ThreadRecord}
    (hf : ∀ r, (f r).thread.id = r.thread.id)
    (hr : m.scheduler.record? id' = some r) :
    (m.modifyRecord id f).scheduler.record? id' = some (if id' = id then f r else r) := by
  have hid : r.thread.id = id' := by simpa using List.find?_some hr
  unfold Machine.modifyRecord
  rw [Scheduler.record?_modify hf, hr]
  simp [hid]

theorem nesting_modifyRecord (hid : ∀ r, (f r).thread.id = r.thread.id)
    (hf : ∀ r, (f r).nesting = r.nesting) (hm : m.Has id') :
    (m.modifyRecord id f).nesting id' = m.nesting id' := by
  obtain ⟨r, hr⟩ := Option.isSome_iff_exists.1 hm
  rw [nesting_of_record? (record?_modifyRecord _ hid hr), nesting_of_record? hr]
  split
  · exact hf r
  · rfl

end Machine

variable {P : Program} {o : Origin} {T : ThreadId → Prop} {Made : ObjectRef → Prop}
  {m m' : Machine} {id id' : ThreadId}

theorem Machine.Step.unseen (hs : m.Step P o T Made m') : m.Unseen m' := by
  cases hs with
  | delegate call v heap scheduler hargs hi =>
    rcases Delegates.invoke_cases hi with ⟨-, -, rfl⟩ | ⟨-, ⟨-, rfl⟩ | ⟨-, cpu, hz, rfl⟩ | ⟨rfl, -⟩⟩
    all_goals exact ⟨rfl, rfl, rfl, rfl, rfl⟩
  | stop ref =>
    unfold Scheduler.stop
    split <;> exact ⟨rfl, rfl, rfl, rfl, rfl⟩
  | _ => exact ⟨rfl, rfl, rfl, rfl, rfl⟩

/-- A step leaves the record of a thread (`record?`) alone, but it may ask the thread to stop. -/
theorem Machine.Step.record? {r : ThreadRecord} (hs : m.Step P o T Made m')
    (hr : m.scheduler.record? id = some r) :
    ∃ stopRequested, m'.scheduler.record? id =
      some { r with thread := { r.thread with stopRequested } } := by
  cases hs with
  | context | newCell | newObject | setMember | store | write | unhit | log | called =>
    exact ⟨_, hr⟩
  | delegate call v heap scheduler hargs hi =>
    rcases Delegates.invoke_cases hi with ⟨-, -, rfl⟩ | ⟨-, ⟨-, rfl⟩ | ⟨-, cpu, hz, rfl⟩ | ⟨rfl, -⟩⟩
    all_goals exact ⟨_, hr⟩
  | spawn id' ref job hid hjob =>
    -- New records go to the end, where a known thread is not looked for.
    exact ⟨_, (record?_spawn (Option.isSome_iff_exists.2 ⟨r, hr⟩)).trans hr⟩
  | stop ref =>
    unfold Scheduler.stop
    split
    · next r' _ =>
      refine ⟨if id = r'.thread.id then true else r.thread.stopRequested, ?_⟩
      refine (record?_modifyRecord _ (f := fun r => { r with thread := r.thread.requestStop })
        (fun _ => rfl) hr).trans ?_
      split <;> rfl
    · exact ⟨_, hr⟩

theorem Machine.Frame.charge (id : ThreadId) (duration : Nat) (hm : m.Has id') :
    m.Frame id' { m with scheduler := m.scheduler.charge id duration } ∧
      Machine.depth { m with scheduler := m.scheduler.charge id duration } id' = m.depth id' :=
  ⟨.modifyRecord hm (fun _ => rfl) fun _ => rfl,
    thread_modifyRecord (·.debugDepth) (fun _ => rfl) fun _ => rfl⟩

theorem Machine.Step.nesting (hs : m.Step P o T Made m') (hm : m.Has id) :
    m'.nesting id = m.nesting id := by
  obtain ⟨r, hr⟩ := Option.isSome_iff_exists.1 hm
  obtain ⟨stopRequested, hr'⟩ := hs.record? hr
  rw [nesting_of_record? hr', nesting_of_record? hr]
  rfl

theorem Machine.Step.frame (hs : m.Step P o T Made m') (hm : m.Has id) :
    m.Frame id m' ∧ m'.depth id = m.depth id := by
  obtain ⟨r, hr⟩ := Option.isSome_iff_exists.1 hm
  obtain ⟨stopRequested, hr'⟩ := hs.record? hr
  refine ⟨⟨hs.unseen, Option.isSome_iff_exists.2 ⟨_, hr'⟩, ?_⟩, ?_⟩
  · simp only [thread, hr, hr']
  · exact congrArg Nesting.debugging (hs.nesting hm)

namespace Guard

variable (g : Guard)

def switchOn (r : ThreadRecord) : ThreadRecord :=
  match g with
  | .within s => { r with thread := r.thread.enter s }
  | .timed => { r with timed := true }

def switchOff (r : ThreadRecord) : ThreadRecord :=
  match g with
  | .within s => { r with thread := r.thread.leave s }
  | .timed => { r with timed := false }

theorem enter_eq : g.enter id m = m.modifyRecord id g.switchOn := by
  cases g <;> rfl

theorem leave_eq : g.leave id m = m.modifyRecord id g.switchOff := by
  cases g <;> rfl

theorem keeps_switchOn (r : ThreadRecord) :
    (g.switchOn r).thread.id = r.thread.id ∧ (g.switchOn r).thread.step = r.thread.step ∧
      (g.switchOn r).nesting = r.nesting.enter g := by
  cases g with
  | within s => cases s <;> exact ⟨rfl, rfl, rfl⟩
  | timed => exact ⟨rfl, rfl, rfl⟩

theorem keeps_switchOff (r : ThreadRecord) :
    (g.switchOff r).thread.id = r.thread.id ∧ (g.switchOff r).thread.step = r.thread.step ∧
      (g.switchOff r).nesting = r.nesting.leave g := by
  cases g with
  | within s => cases s <;> exact ⟨rfl, rfl, rfl⟩
  | timed => exact ⟨rfl, rfl, rfl⟩

theorem unseen_enter : m.Unseen (g.enter id m) := by
  cases g <;> exact ⟨rfl, rfl, rfl, rfl, rfl⟩

theorem unseen_leave : m.Unseen (g.leave id m) := by
  cases g <;> exact ⟨rfl, rfl, rfl, rfl, rfl⟩

theorem frame_enter (hm : m.Has id) : m.Frame id (g.enter id' m) :=
  g.enter_eq ▸ .modifyRecord hm (fun r => (g.keeps_switchOn r).1) fun r => (g.keeps_switchOn r).2.1

theorem frame_leave (hm : m.Has id) : m.Frame id (g.leave id' m) :=
  g.leave_eq ▸ .modifyRecord hm (fun r => (g.keeps_switchOff r).1) fun r =>
    (g.keeps_switchOff r).2.1

theorem nesting_enter (id : ThreadId) (hm : m.Has id') :
    (g.enter id m).nesting id' = if id' = id then (m.nesting id').enter g else m.nesting id' := by
  obtain ⟨r, hr⟩ := Option.isSome_iff_exists.1 hm
  have hr' := Machine.record?_modifyRecord id (fun r => (g.keeps_switchOn r).1) hr
  rw [g.enter_eq, Machine.nesting_of_record? hr', Machine.nesting_of_record? hr]
  split
  · exact (g.keeps_switchOn r).2.2
  · rfl

theorem nesting_leave (id : ThreadId) (hm : m.Has id') :
    (g.leave id m).nesting id' = if id' = id then (m.nesting id').leave g else m.nesting id' := by
  obtain ⟨r, hr⟩ := Option.isSome_iff_exists.1 hm
  have hr' := Machine.record?_modifyRecord id (fun r => (g.keeps_switchOff r).1) hr
  rw [g.leave_eq, Machine.nesting_of_record? hr', Machine.nesting_of_record? hr]
  split
  · exact (g.keeps_switchOff r).2.2
  · rfl

theorem nesting_leave_enter (hopens : g.Opens id m) (hm : m.Has id') (hm' : m'.Has id')
    (hnesting : m'.nesting id' = (g.enter id m).nesting id') :
    (g.leave id m').nesting id' = m.nesting id' := by
  rw [g.nesting_leave id hm', hnesting, g.nesting_enter id hm]
  split
  · next hid =>
    subst hid
    exact Nesting.leave_enter hopens
  · rfl

theorem depth_enter (hm : m.Has id) :
    (g.enter id m).depth id = m.depth id + if g = .within .debugging then 1 else 0 := by
  have hnesting := g.nesting_enter id hm
  rw [if_pos rfl] at hnesting
  refine (congrArg Nesting.debugging hnesting).trans ?_
  cases g with
  | within s => cases s <;> rfl
  | timed => rfl

/-- Under a guard the `depth` comes back to what it was, whatever becomes of the other guards. -/
theorem depth_leave_enter (hm : m.Has id') (hm' : m'.Has id')
    (hdepth : m'.depth id' = (g.enter id m).depth id') :
    (g.leave id m').depth id' = m.depth id' := by
  have hentered := congrArg Nesting.debugging (g.nesting_enter id hm)
  have hleft := congrArg Nesting.debugging (g.nesting_leave id hm')
  -- On the thread of the guard the depth goes up and down; on others it stays.
  by_cases hid : id' = id
  · rw [if_pos hid] at hentered hleft
    refine hleft.trans ?_
    cases g with
    | within s =>
      cases s <;> simp_all [Machine.nesting, Machine.depth, Nesting.enter, Nesting.leave]
    | timed => exact hdepth.trans hentered
  · rw [if_neg hid] at hentered hleft
    exact hleft.trans (hdepth.trans hentered)

theorem time_enter : (g.enter id m).scheduler.time id' = m.scheduler.time id' := by
  rw [g.enter_eq]
  exact Scheduler.time_modify (fun r => (g.keeps_switchOn r).1) fun r => by cases g <;> rfl

theorem time_leave : (g.leave id m).scheduler.time id' = m.scheduler.time id' := by
  rw [g.leave_eq]
  exact Scheduler.time_modify (fun r => (g.keeps_switchOff r).1) fun r => by cases g <;> rfl

end Guard

end Animator

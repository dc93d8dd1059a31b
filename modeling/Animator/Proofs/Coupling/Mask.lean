import Animator.Proofs.Effect.Basic

/-!
# What no construct of the language looks at

Some details of a machine are of no interest to the constructs of the language: how often places and
breakpoints were hit, the debugger and the stops it has seen, the history, the turns that threads
have offered, their step targets, and the request that waits for one of them. A `Mask` changes such
details.

Constructs consist of parts that read the machine or change it (`Part`). What a part reads is the
same behind a mask, and what it does to a machine can be done behind the mask instead
(`Part.behind`).
-/

namespace Animator

/-- What is in a machine that no construct of the language reads. -/
structure Aside where
  hits : Hits
  breakpoints : BreakpointTable
  link : Option Link
  stops : Array Stop
  history : List Event

namespace Machine

def aside (m : Machine) : Aside :=
  ⟨m.hits, m.breakpoints, m.link, m.stops, m.history⟩

/-- The machine with another `scheduler`, and with other things `Aside`. -/
def beside (m : Machine) (s : Scheduler) (a : Aside) : Machine :=
  { m with
    scheduler := s
    hits := a.hits, breakpoints := a.breakpoints, link := a.link, stops := a.stops
    history := a.history }

end Machine

theorem StepTarget.id_none : id ({} : StepTarget) = {} :=
  rfl

/-- A change of what no construct of the language looks at. -/
structure Mask where
  /-- The `turns` that a thread has offered. -/
  turns : ThreadId → Nat → Nat := fun _ turns => turns
  step : StepTarget → StepTarget := id
  request : Interrupt → Interrupt := id
  aside : Aside → Aside := id
  -- No thread begins to step.
  step_none : step {} = {} := by rfl

namespace Mask

variable (K : Mask)

def record (r : ThreadRecord) : ThreadRecord :=
  { r with
    thread := r.thread.stepTo (K.step r.thread.step)
    yields := K.turns r.thread.id r.yields }

def scheduler (s : Scheduler) : Scheduler :=
  { s with records := s.records.map K.record, interrupt := K.request s.interrupt }

/-- The machine behind the mask. -/
def machine (m : Machine) : Machine :=
  m.beside (K.scheduler m.scheduler) (K.aside m.aside)

/-- The next thread that is started has offered no `turns` behind the mask, either. -/
def Fits (s : Scheduler) : Prop :=
  K.turns s.nextId 0 = 0

section Scheduler

variable (s : Scheduler) (id : ThreadId)

theorem find?_scheduler {p : ThreadRecord → Bool} (hp : ∀ r, p (K.record r) = p r) :
    (K.scheduler s).records.find? p = (s.records.find? p).map K.record := by
  have hcomp : p ∘ K.record = p := funext hp
  rw [scheduler, List.find?_map, hcomp]

theorem record?_scheduler : (K.scheduler s).record? id = (s.record? id).map K.record :=
  K.find?_scheduler s fun _ => rfl

theorem time_scheduler : (K.scheduler s).time id = s.time id := by
  unfold Scheduler.time
  rw [K.record?_scheduler]
  cases s.record? id <;> rfl

theorem isTimed_scheduler : (K.scheduler s).isTimed id = s.isTimed id := by
  unfold Scheduler.isTimed
  rw [K.record?_scheduler]
  cases s.record? id <;> rfl

theorem scheduler_modify {f : ThreadRecord → ThreadRecord}
    (hf : ∀ r, K.record (f r) = f (K.record r)) :
    K.scheduler (s.modify id f) = (K.scheduler s).modify id f := by
  simp only [scheduler, Scheduler.modify, List.map_map, Scheduler.mk.injEq, true_and, and_true]
  refine List.map_congr_left fun r _ => ?_
  have hid : (K.record r).thread.id = r.thread.id := rfl
  simp only [Function.comp_apply, hid]
  split
  · exact hf r
  · rfl

theorem scheduler_modify_eq {f : ThreadRecord → ThreadRecord}
    (hf : ∀ r, K.record (f r) = K.record r) :
    K.scheduler (s.modify id f) = K.scheduler s := by
  simp only [scheduler, Scheduler.modify, List.map_map, Scheduler.mk.injEq, true_and, and_true]
  refine List.map_congr_left fun r _ => ?_
  simp only [Function.comp_apply]
  split
  · exact hf r
  · rfl

theorem scheduler_stop (ref : ObjectRef) :
    (K.scheduler s).stop ref = ((s.stop ref).1, K.scheduler (s.stop ref).2) := by
  -- The numbers and the objects of records are kept, so the same record is found.
  have hfind := K.find?_scheduler s
    (p := fun r => r.running && r.object.any (·.id == ref.id)) fun _ => rfl
  unfold Scheduler.stop
  rw [hfind]
  cases s.records.find? fun r => r.running && r.object.any (·.id == ref.id) with
  | none => rfl
  | some r =>
    have hask := K.scheduler_modify (s.ask ref) r.thread.id
      (f := fun r => { r with thread := r.thread.requestStop }) fun _ => rfl
    exact congrArg (true, ·) hask.symm

theorem scheduler_spawn {s : Scheduler} (hs : K.Fits s) (name : String) (cpu : Nat)
    (object : Option ObjectRef) (alone : Bool) (startTime : Nat) (job : Job) :
    (K.scheduler s).spawn name cpu object alone startTime job =
      ((s.spawn name cpu object alone startTime job).1,
        K.scheduler (s.spawn name cpu object alone startTime job).2) := by
  have hnew : K.turns s.nextId 0 = 0 := hs
  simp [Scheduler.spawn, scheduler, record, Thread.stepTo, hnew, K.step_none]

end Scheduler

variable (m : Machine) (id : ThreadId)

theorem thread_machine :
    (K.machine m).thread id = (m.thread id).stepTo (K.step (m.thread id).step) := by
  unfold Machine.thread machine Machine.beside
  dsimp only
  rw [K.record?_scheduler]
  cases m.scheduler.record? id with
  | none => simp [Thread.stepTo, K.step_none]
  | some r => rfl

theorem holds_machine : (K.machine m).holds = m.holds := by
  have hvalues : (K.machine m).values = m.values := by
    simp only [Machine.values, machine, Machine.beside, scheduler, List.flatMap_map]
    rfl
  funext node
  rw [Machine.holds, hvalues, Machine.holds]

theorem machine_guard (g : Guard) :
    g.enter id (K.machine m) = K.machine (g.enter id m) ∧
      g.leave id (K.machine m) = K.machine (g.leave id m) := by
  have hmodify : ∀ f : ThreadRecord → ThreadRecord, (∀ r, K.record (f r) = f (K.record r)) →
      ({ K.machine m with scheduler := (K.machine m).scheduler.modify id f } : Machine) =
        K.machine { m with scheduler := m.scheduler.modify id f } := by
    intro f hf
    have hscheduler : K.scheduler (m.scheduler.modify id f) = (K.machine m).scheduler.modify id f :=
      K.scheduler_modify m.scheduler id hf
    rw [← hscheduler]
    rfl
  cases g with
  | timed => exact ⟨hmodify _ fun _ => rfl, hmodify _ fun _ => rfl⟩
  | within s =>
    refine ⟨hmodify (fun r => { r with thread := r.thread.enter s }) fun r => ?_,
      hmodify (fun r => { r with thread := r.thread.leave s }) fun r => ?_⟩
    all_goals cases s <;> rfl

end Mask

/-! ### Parts -/

/-- Call an operation given from outside, and keep what it has done. -/
def Eval.invoke (d : Delegates) (call : DelegateCall) :
    Eval (Option (Except String Value)) := fun m =>
  match d.invoke m.heap m.scheduler call with
  | none => (.ok none, m)
  | some (.error message) => (.ok (some (.error message)), m)
  | some (.ok (v, heap, scheduler)) => (.ok (some (.ok v)), { m with heap, scheduler })

/-- The parts that constructs consist of. They always come to their end. -/
inductive Part : {α : Type} → Eval α → Prop where
  /-- Something that depends on the `globals` and the heap only. -/
  | reads {α : Type} {f : Machine → α}
      (hf : ∀ m, f m = f { globals := m.globals, heap := m.heap }) :
    Part (Eval.reads f)
  | timeLimit : Part (Eval.reads (·.scheduler.timeLimit))
  | time (id : ThreadId) : Part (Eval.reads fun m => m.scheduler.time id)
  | fits (id : ThreadId) (duration : Nat) : Part (Eval.reads (·.scheduler.fits id duration))
  | isTimed (id : ThreadId) : Part (Eval.reads (·.scheduler.isTimed id))
  | duration (id : ThreadId) (cycles : Nat) :
    Part (Eval.reads fun m => m.scheduler.cyclesToDuration (m.thread id).cpu cycles)
  | isAlive (held outside : HeapNode → Bool) (ref : ObjectRef) :
    Part (Eval.reads fun m =>
      m.heap.isAlive (fun node => held node || m.holds node || outside node) ref)
  | called (ref : ObjectRef) (alive : Bool) :
    Part (Eval.change fun m => { m with calls := (ref, alive) :: m.calls })
  | newCell (cell : Cell) : Part (Eval.newCell cell)
  | store (c : CellId) (path : List Segment) (v : Value) :
    Part fun m => (.ok (Heap.storeAt c path v m.heap).1,
      { m with heap := (Heap.storeAt c path v m.heap).2 })
  | noteChanges (id : ThreadId) (c : CellId) (path : List Segment) (v : Value) :
    Part (Eval.noteChanges id c path v)
  | log (id : ThreadId) (text : String) : Part (Eval.log id text)
  | invoke (d : Delegates) (call : DelegateCall) : Part (Eval.invoke d call)
  | spawn (ref : ObjectRef) (id : ThreadId) (job : Job) :
    Part (Eval.change fun m => (m.spawn ref.text (some ref) (m.scheduler.time id) job).2)
  | stop (ref : ObjectRef) : Part (Eval.schedule (·.stop ref))
  | charge (id : ThreadId) (duration : Nat) : Part (Eval.changeScheduler (·.charge id duration))

namespace Part

variable {α : Type} {x : Eval α}

theorem isOk (h : Part x) (m : Machine) : ∃ a m', x m = (.ok a, m') := by
  cases h with
  | invoke d call =>
    unfold Eval.invoke
    split <;> exact ⟨_, _, rfl⟩
  | _ => exact ⟨_, _, rfl⟩

/-- Behind a `Mask` a part comes to the same result, and does the same. -/
theorem behind (h : Part x) (K : Mask) {m : Machine} (hm : K.Fits m.scheduler) :
    x (K.machine m) = ((x m).1, K.machine (x m).2) := by
  have htime : ∀ id, (K.machine m).scheduler.time id = m.scheduler.time id :=
    K.time_scheduler m.scheduler
  cases h with
  | timeLimit | called | newCell | store => rfl
  | @reads _ f hf =>
    have hread : f (K.machine m) = f m := (hf (K.machine m)).trans (hf m).symm
    exact congrArg (fun a => (Except.ok a, K.machine m)) hread
  | time id => exact congrArg (fun t => (Except.ok t, K.machine m)) (htime id)
  | fits id duration =>
    exact congrArg (fun t =>
      (Except.ok (decide (t + duration < Word.size64)), K.machine m)) (htime id)
  | isTimed id =>
    exact congrArg (fun b => (Except.ok b, K.machine m)) (K.isTimed_scheduler m.scheduler id)
  | duration id cycles =>
    have hcpu : ((K.machine m).thread id).cpu = (m.thread id).cpu := by
      rw [K.thread_machine]
      rfl
    simp only [Eval.reads, hcpu]
    rfl
  | isAlive held outside ref =>
    simp only [Eval.reads, K.holds_machine]
    rfl
  | noteChanges id c path v =>
    have hpure : ((K.machine m).thread id).isPure = (m.thread id).isPure := by
      rw [K.thread_machine]
      rfl
    have hheap : (K.machine m).heap = m.heap := rfl
    simp only [Eval.noteChanges, Eval.change, Machine.changesOf_congr hheap hpure]
    rfl
  | log id text =>
    simp only [Eval.log, Eval.change, htime]
    rfl
  | invoke d call =>
    have hinvoke : d.invoke (K.machine m).heap (K.machine m).scheduler call =
        (d.invoke m.heap m.scheduler call).map fun r => r.map fun out =>
          (out.1, out.2.1, K.scheduler out.2.2) :=
      d.invoke_map m.heap call (htime _) fun _ _ => rfl
    unfold Eval.invoke
    rw [hinvoke]
    rcases d.invoke m.heap m.scheduler call with _ | message | ⟨v, heap, scheduler⟩ <;> rfl
  | spawn ref id job =>
    have hspawn := K.scheduler_spawn hm ref.text (((some ref).bind m.heap.cpu?).getD 0) (some ref)
      ((some ref).all fun ref => (m.heap.object? ref.id).any (·.thread.isNone))
      (m.scheduler.time id) job
    simp only [Eval.change, Machine.spawn, htime]
    exact congrArg (fun s : ThreadId × Scheduler =>
      (Except.ok (), ({ K.machine m with
        scheduler := s.2, heap := m.heap.setThread ref (some s.1) } : Machine))) hspawn
  | stop ref =>
    exact congrArg (fun out : Bool × Scheduler =>
      (Except.ok out.1, ({ K.machine m with scheduler := out.2 } : Machine)))
        (K.scheduler_stop m.scheduler ref)
  | charge id duration =>
    have hcharge := K.scheduler_modify m.scheduler id (f := (·.charge duration)) fun _ => rfl
    exact congrArg (fun s => (Except.ok (), ({ K.machine m with scheduler := s } : Machine)))
      hcharge.symm

/-- A part does nothing to what is `aside` or to the request, and takes no number back. -/
theorem keeps (h : Part x) (m : Machine) :
    (x m).2.aside = m.aside ∧ (x m).2.scheduler.interrupt = m.scheduler.interrupt ∧
      m.scheduler.nextId ≤ (x m).2.scheduler.nextId := by
  cases h with
  | spawn => exact ⟨rfl, rfl, Nat.le_succ _⟩
  | stop ref =>
    have hstop : (m.scheduler.stop ref).2.interrupt = m.scheduler.interrupt ∧
        (m.scheduler.stop ref).2.nextId = m.scheduler.nextId := by
      unfold Scheduler.stop
      split <;> exact ⟨rfl, rfl⟩
    exact ⟨rfl, hstop.1, Nat.le_of_eq hstop.2.symm⟩
  | invoke d call =>
    unfold Eval.invoke
    split
    · exact ⟨rfl, rfl, Nat.le_refl _⟩
    · exact ⟨rfl, rfl, Nat.le_refl _⟩
    · next hfound =>
      rcases Delegates.invoke_cases hfound with
        ⟨-, rfl, rfl⟩ | ⟨-, ⟨rfl, rfl⟩ | ⟨rfl, cpu, hz, rfl⟩ | ⟨rfl, ref, cpu, rfl⟩⟩
      all_goals exact ⟨rfl, rfl, Nat.le_refl _⟩
  | _ => exact ⟨rfl, rfl, Nat.le_refl _⟩

end Part

end Animator

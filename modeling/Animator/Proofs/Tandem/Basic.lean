import Animator.Proofs.Coupling.Basic
import Animator.Proofs.Effect.Debug

/-!
# Evaluations in tandem

Two evaluations of the same code in the same contexts are compared, on machines that differ only in
what no construct of the language reads: how often places and breakpoints were hit, the debugger and
the stops it has seen, the history, and the turns that the main thread has offered. The second
evaluation may have a pause to make that the first one has not.

What is aside may differ in any way that is given (`Tandem`). The two evaluations are then coupled
(`tandem`), if the debugger and the checks respect that.
-/

namespace Animator

/-! ### Schedulers -/

/-- How far the first of two evaluations is ahead of the second one. -/
structure Lag where
  /-- How many more `turns` its thread has offered. -/
  turns : Nat := 0
  /-- Whether only the second one has a pause to make. -/
  pending : Bool := false

/-- The record of a thread that has offered some more `turns`. -/
def ThreadRecord.ahead (r : ThreadRecord) (turns : Nat) : ThreadRecord :=
  { r with yields := r.yields + turns }

/-- The thread runs no object, so nothing asks it to stop. It is not stepping, and it does not
evaluate for the debugger. -/
structure ThreadRecord.Unbothered (r : ThreadRecord) : Prop where
  object : r.object = none
  debugDepth : r.thread.debugDepth = 0
  stopRequested : r.thread.stopRequested = false
  step : r.thread.step = {}

/-- The `mask` that `turns` the machine of the second evaluation into that of the first one. -/
def Lag.mask (lag : Lag) (a : Aside) : Mask where
  turns id turns := if id == mainThread then turns + lag.turns else turns
  request request := if lag.pending then .none else request
  aside _ := a
  step_none := StepTarget.id_none

namespace Lag

variable (lag : Lag) {s : Scheduler} {a : Aside}

theorem scheduler_mask : (lag.mask a).scheduler s =
    { s.modify mainThread (·.ahead lag.turns) with
      interrupt := if lag.pending then .none else s.interrupt } := by
  simp only [Mask.scheduler, Scheduler.modify, Scheduler.mk.injEq, true_and, and_true]
  refine ⟨List.map_congr_left fun r _ => ?_, rfl⟩
  cases hid : r.thread.id == mainThread <;> simp only [Mask.record, mask, hid] <;> rfl

theorem fits_mask (hfresh : mainThread < s.nextId) : (lag.mask a).Fits s :=
  if_neg (by simpa using Nat.ne_of_gt hfresh)

theorem yieldPoint_mask (turns : Nat) (pending : Bool) :
    (((Lag.mk turns pending).mask a).scheduler s).yieldPoint mainThread =
      ((Lag.mk (turns + 1) pending).mask a).scheduler s := by
  simp only [scheduler_mask, Scheduler.yieldPoint, Scheduler.modify, List.map_map,
    Scheduler.mk.injEq, true_and, and_true]
  refine List.map_congr_left fun r _ => ?_
  simp only [Function.comp_apply]
  by_cases hr : r.thread.id == mainThread <;> simp_all [ThreadRecord.ahead, Nat.add_assoc]

theorem mask_zero (pending : Bool) :
    ((Lag.mk 0 pending).mask a).scheduler s =
      { s with interrupt := if pending then .none else s.interrupt } := by
  have hmap : s.records.map (fun r => if r.thread.id == mainThread then r.ahead 0 else r) =
      s.records := by
    refine (List.map_congr_left fun r _ => ?_).trans (List.map_id _)
    split <;> rfl
  simp only [scheduler_mask, Scheduler.modify, hmap]

end Lag

/-- Offer the other threads a `turn`, or not. -/
def Machine.turn (m : Machine) (id : ThreadId) (on : Bool) : Machine :=
  if on then { m with scheduler := m.scheduler.yieldPoint id } else m

/-! ### Machines -/

/-- Nothing bothers the main thread. -/
def Scheduler.Unbothered (s : Scheduler) : Prop :=
  ∀ r ∈ s.records, r.thread.id = mainThread → r.Unbothered

namespace Scheduler.Unbothered

variable {s : Scheduler} (h : s.Unbothered)

include h

theorem modify {j : ThreadId} {f : ThreadRecord → ThreadRecord}
    (hid : ∀ r, (f r).thread.id = r.thread.id)
    (hf : j = mainThread → ∀ r, r.Unbothered → (f r).Unbothered) : (s.modify j f).Unbothered := by
  intro r hr hthread
  obtain ⟨r₀, hr₀, rfl⟩ := List.mem_map.1 hr
  by_cases hj : r₀.thread.id = j
  · simp only [hj, beq_self_eq_true, if_true] at hthread ⊢
    rw [hid, hj] at hthread
    exact hf hthread r₀ (h r₀ hr₀ (hj.trans hthread))
  · simp only [beq_eq_false_iff_ne.2 hj, Bool.false_eq_true, if_false] at hthread ⊢
    exact h r₀ hr₀ hthread

theorem spawn (hfresh : mainThread < s.nextId) {name : String} {cpu : Nat}
    {object : Option ObjectRef} {alone : Bool} {startTime : Nat} {job : Job} :
    (s.spawn name cpu object alone startTime job).2.Unbothered := by
  intro r hr hthread
  rcases List.mem_append.1 hr with hr | hr
  · exact h r hr hthread
  · rw [List.mem_singleton.1 hr] at hthread
    exact absurd hthread (Nat.ne_of_gt hfresh)

theorem stop (ref : ObjectRef) : (s.stop ref).2.Unbothered := by
  unfold Scheduler.stop
  split
  · next found hfound =>
    refine h.modify (fun _ => rfl) fun hthread => ?_
    -- The thread that is to stop runs an object, so it is another one.
    have hobject := (h found (List.mem_of_find?_eq_some hfound) hthread).object
    have hruns := List.find?_some hfound
    simp [hobject] at hruns
  · exact h

end Scheduler.Unbothered

/-- A part does not bother the thread (`Unbothered`). -/
theorem Scheduler.Unbothered.part {α : Type} {x : Eval α} (hx : Part x) {m : Machine}
    (hfresh : mainThread < m.scheduler.nextId) (h : m.scheduler.Unbothered) :
      (x m).2.scheduler.Unbothered := by
  cases hx with
  | spawn => exact h.spawn hfresh
  | stop ref => exact h.stop ref
  | charge => exact h.modify (fun _ => rfl) fun _ _ h => { h with }
  | invoke d call =>
    unfold Eval.invoke
    split
    · exact h
    · exact h
    · next hfound =>
      -- All that can happen is that a processor is defined or an object is deployed.
      rcases Delegates.invoke_cases hfound with
        ⟨-, -, rfl⟩ | ⟨-, ⟨-, rfl⟩ | ⟨-, cpu, hz, rfl⟩ | ⟨rfl, -⟩⟩ <;> exact h
  | _ => exact h

theorem Scheduler.Unbothered.guard {m : Machine} (h : m.scheduler.Unbothered) {g : Guard}
    (hg : g ≠ .within .debugging) (id : ThreadId) :
    (g.enter id m).scheduler.Unbothered ∧ (g.leave id m).scheduler.Unbothered := by
  cases g with
  | timed =>
    exact ⟨h.modify (fun _ => rfl) fun _ _ h => { h with },
      h.modify (fun _ => rfl) fun _ _ h => { h with }⟩
  | within s =>
    cases s with
    | debugging => exact absurd rfl hg
    | _ =>
      exact ⟨h.modify (fun _ => rfl) fun _ _ h => { h with },
        h.modify (fun _ => rfl) fun _ _ h => { h with }⟩

/-- Two machines that differ in what no construct reads, and in turns of the main thread. -/
inductive Tandem (Sides : Lag → Aside → Aside → Prop) : Machine → Machine → Prop where
  | intro (lag : Lag) (a : Aside) (m' : Machine)
      (hrequest : m'.scheduler.interrupt = if lag.pending then .pause else .none)
      (hfresh : mainThread < m'.scheduler.nextId) (hrests : m'.scheduler.Unbothered)
      (hsides : Sides lag a m'.aside) : Tandem Sides ((lag.mask a).machine m') m'

namespace Tandem

variable {α : Type} {Sides : Lag → Aside → Aside → Prop} {m m' : Machine} (h : Tandem Sides m m')

include h

theorem map {g : Machine → Machine}
    (hrests : mainThread < m'.scheduler.nextId → m'.scheduler.Unbothered →
      (g m').scheduler.Unbothered)
    (hbehind : ∀ K : Mask, K.Fits m'.scheduler → g (K.machine m') = K.machine (g m') := by
      intros; rfl)
    (haside : (g m').aside = m'.aside ∧ (g m').scheduler.interrupt = m'.scheduler.interrupt ∧
      m'.scheduler.nextId ≤ (g m').scheduler.nextId := by exact ⟨rfl, rfl, Nat.le_refl _⟩) :
    Tandem Sides (g m) (g m') := by
  rcases h with ⟨lag, a, _, hrequest, hfresh, hr, hsides⟩
  rw [hbehind _ (lag.fits_mask hfresh)]
  refine ⟨lag, a, _, ?_, Nat.lt_of_lt_of_le hfresh haside.2.2, hrests hfresh hr, ?_⟩
  · rw [haside.2.1]
    exact hrequest
  · rw [haside.1]
    exact hsides

theorem beside {a a' : Aside} (hsides : ∀ lag, Sides lag m.aside m'.aside → Sides lag a a') :
    Tandem Sides (m.beside m.scheduler a) (m'.beside m'.scheduler a') := by
  rcases h with ⟨lag, _, _, hrequest, hfresh, hrests, hlag⟩
  exact ⟨lag, a, m'.beside m'.scheduler a', hrequest, hfresh, hrests, hsides lag hlag⟩

theorem turn (on : Bool) : Tandem Sides (m.turn mainThread on) (m'.turn mainThread on) := by
  cases on with
  | false => exact h
  | true =>
    rcases h with ⟨⟨turns, pending⟩, a, _, hrequest, hfresh, hrests, hsides⟩
    have hturn : ∀ s : Scheduler, ((Lag.mk turns pending).mask a).scheduler
        (s.yieldPoint mainThread) =
          (((Lag.mk turns pending).mask a).scheduler s).yieldPoint mainThread := fun s =>
      Mask.scheduler_modify _ s _ fun r => by
        simp only [Mask.record, Lag.mask]
        split <;> simp only [Nat.add_right_comm]
    have hrelated : Tandem Sides
        (((Lag.mk turns pending).mask a).machine (m'.turn mainThread true))
        (m'.turn mainThread true) :=
      ⟨_, _, _, hrequest, hfresh, hrests.modify (fun _ => rfl) fun _ _ h => { h with }, hsides⟩
    have hmachine := congrArg (m'.beside · a) (hturn m'.scheduler)
    exact (congrArg (Tandem Sides · _) hmachine).mp hrelated

theorem read {f : Machine → α} (hf : ∀ (K : Mask) m, f (K.machine m) = f m) : f m = f m' := by
  rcases h with ⟨lag, a⟩
  exact hf _ m'

theorem thread (id : ThreadId) : m.thread id = m'.thread id := by
  rcases h with ⟨lag, a⟩
  exact (lag.mask a).thread_machine m' id

theorem part {x : Eval α} (hx : Part x) : (x m).1 = (x m').1 ∧ Tandem Sides (x m).2 (x m').2 := by
  refine ⟨?_, h.map (g := fun m => (x m).2) (.part hx) (fun K hK => by rw [hx.behind K hK])
    (hx.keeps m')⟩
  rcases h with ⟨lag, a, _, -, hfresh⟩
  rw [hx.behind _ (lag.fits_mask hfresh)]

theorem guard {g : Guard} (hg : g ≠ .within .debugging) (id : ThreadId) :
    Tandem Sides (g.enter id m) (g.enter id m') ∧ Tandem Sides (g.leave id m) (g.leave id m') := by
  have haside : ∀ f ∈ [g.enter id, g.leave id], (f m').aside = m'.aside ∧
      (f m').scheduler.interrupt = m'.scheduler.interrupt ∧
        m'.scheduler.nextId ≤ (f m').scheduler.nextId := by
    cases g <;> simpa using ⟨⟨rfl, rfl, Nat.le_refl _⟩, rfl, rfl, Nat.le_refl _⟩
  obtain ⟨henter, hleave⟩ := by simpa using haside
  exact ⟨h.map (fun _ hrests => (hrests.guard hg id).1) (fun K _ =>
    (K.machine_guard m' id g).1) henter,
    h.map (fun _ hrests => (hrests.guard hg id).2) (fun K _ => (K.machine_guard m' id g).2) hleave⟩

end Tandem

/-- Two evaluations on the main thread in `tandem`. -/
def tandem (Sides : Lag → Aside → Aside → Prop)
    (hunhit : ∀ {lag a a'} (counter : Nat), Sides lag a a' →
      Sides lag { a with hits := a.hits.unhit counter } { a' with hits := a'.hits.unhit counter }) :
    Coupling where
  Rel := Tandem Sides
  Ctx c c' := c = c' ∧ c.thread = mainThread
  Short := False
  onThread hc := by rw [hc.1]
  holds hc := by rw [hc.1]
  resolves hc := by simp [hc.1]
  alike hc := hc.1 ▸ .refl _
  holdAll _ hc := ⟨by rw [hc.1], hc.2⟩
  bindAll _ hc := ⟨by rw [hc.1], hc.2⟩
  scope {_ _ m m'} _ _ _ hc h := by
    have hid : m.nextContext = m'.nextContext := h.read fun _ _ => rfl
    exact ⟨⟨by rw [hc.1, hid], hc.2⟩,
      h.map (g := fun m => { m with nextContext := m.nextContext + 1 }) fun _ => id⟩
  isPure := @Thread.isPure_of_eq
  thread id h := h.thread id
  part hx h := h.part hx
  guard id hg h := h.guard hg id
  unhit {m m'} counter h :=
    h.beside (a := { m.aside with hits := m.hits.unhit counter }) fun _ => hunhit counter
  mapHeap f h := h.map (g := fun m => { m with heap := f m.heap }) fun _ => id

end Animator

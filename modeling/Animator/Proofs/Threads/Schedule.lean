import Animator.Eval.Join
import Animator.Proofs.Effect.Frame
import Mathlib.Data.Nat.Find

/-!
# The schedule of periodic threads

A thread that is activated again and again is due at equal distances of time. An activation that
takes longer delays the next one, but it does not change when the others are due. The thread ends
with the first activation that would begin when the time is over.
-/

namespace Animator

/-- A thread that is activated again and again, with the least time between two activations and the
time before the first one. -/
inductive Timing.Recurs : Timing → Nat → Nat → Prop where
  | periodic (period jitter delay offset : Nat) :
    Recurs (.periodic period jitter delay offset) period offset
  | sporadic (minDelay maxDelay offset : Nat) :
    Recurs (.sporadic minDelay maxDelay offset) minDelay offset

/-! ### Times -/

/-- When the activations of a thread begin: when they are due, or else when the activation before
has come to its end. -/
def startTime (start period : Nat) (cost : Nat → Nat) : Nat → Nat
  | 0 => start
  | k + 1 => max (start + (k + 1) * max period 1) (startTime start period cost k + cost k)

section Times

variable {start period limit k : Nat} {cost : Nat → Nat}

theorem due_le_startTime : start + k * max period 1 ≤ startTime start period cost k := by
  cases k with
  | zero => simp [startTime]
  | succ k => exact Nat.le_max_left _ _

theorem le_startTime : k ≤ startTime start period cost k := by
  have hperiod : k ≤ k * max period 1 := Nat.le_mul_of_pos_right k (by omega)
  have hdue : start + k * max period 1 ≤ startTime start period cost k := due_le_startTime
  omega

theorem exists_first_late (start period : Nat) (cost : Nat → Nat) (limit : Nat) :
    ∃ n ≤ limit, ¬startTime start period cost n < limit ∧
      ∀ j < n, startTime start period cost j < limit := by
  have hlate : ∃ n, ¬startTime start period cost n < limit := ⟨limit, Nat.not_lt.2 le_startTime⟩
  refine ⟨Nat.find hlate, Nat.find_min' hlate (Nat.not_lt.2 le_startTime), Nat.find_spec hlate, ?_⟩
  intro j hj
  exact Decidable.not_not.1 (Nat.find_min hlate hj)

theorem dueTime_eq (h : start + k * max period 1 < Word.size64) :
    dueTime start period k = start + k * max period 1 := by
  rw [dueTime, Nat.min_eq_left (by omega)]

theorem dueTime_lt (h : start + k * max period 1 < Word.size64) :
    dueTime start period k < Word.size64 := by
  rwa [dueTime_eq h]

end Times

/-! ### Activations -/

/-- The thread is active at some time, and not before. -/
def ThreadRecord.wokenAt (due : Nat) (r : ThreadRecord) : ThreadRecord :=
  { r with clock := max r.clock due }

namespace Scheduler

variable {s : Scheduler} {id : ThreadId} {due limit : Nat}

theorem release_snd : (s.release id due).2 = s.modify id (·.wokenAt due) := by
  unfold release
  dsimp only
  split <;> rfl

theorem release_fst (hlimit : s.timeLimit = some limit) :
    (s.release id due).1 = decide ((s.modify id (·.wokenAt due)).time id < limit) := by
  have hlimit' : (s.modify id (·.wokenAt due)).timeLimit = some limit := hlimit
  unfold release
  dsimp only
  split
  · next found hfound =>
    rw [Option.some.inj (hfound.symm.trans hlimit')]
    rfl
  · next hfound => cases hfound.symm.trans hlimit'

end Scheduler

namespace Machine

def released (m : Machine) (id : ThreadId) (due : Nat) : Machine :=
  { m with scheduler := (m.scheduler.release id due).2 }

/-- The thread is known and nobody has asked it to stop, and the time of periodic threads is
limited. -/
structure Active (id : ThreadId) (limit : Nat) (m : Machine) : Prop where
  has : m.Has id
  stopRequested : (m.thread id).stopRequested = false
  timeLimit : m.scheduler.timeLimit = some limit

variable {m : Machine} {id : ThreadId} {due limit : Nat}

theorem released_eq : m.released id due = m.modifyRecord id (·.wokenAt due) :=
  congrArg (fun scheduler => { m with scheduler }) Scheduler.release_snd

theorem time_released (hm : m.Has id) :
    (m.released id due).scheduler.time id = max (m.scheduler.time id) due := by
  obtain ⟨r, hr⟩ := Option.isSome_iff_exists.1 hm
  have hid : r.thread.id = id := by simpa using List.find?_some hr
  have hr' : (m.released id due).scheduler.record? id = some (r.wokenAt due) := by
    rw [released_eq, modifyRecord, Scheduler.record?_modify (f := (·.wokenAt due)) fun _ => rfl, hr]
    simp [hid]
  rw [Scheduler.time, hr', Scheduler.time, hr]
  rfl

end Machine

namespace Engine

variable (id : ThreadId) (start period : Nat) (body : Nat → Eval Value) (m : Machine)

def beforeActivation : Nat → Machine
  | 0 => m
  | k + 1 => (body k ((beforeActivation k).released id (dueTime start period k))).2

def atActivation (k : Nat) : Machine :=
  (beforeActivation id start period body m k).released id (dueTime start period k)

variable {id start period body m} {limit : Nat}

/-- The thread goes on if the next activation is `released` in time. -/
theorem activations_apply (hm : m.Active id limit) (n : Nat) {k : Nat}
    (hdue : dueTime start period k < Word.size64) :
    activations id start period body (n + 1) k m =
      if (m.released id (dueTime start period k)).scheduler.time id < limit then
        (body k >>= fun _ => activations id start period body n (k + 1))
          (m.released id (dueTime start period k))
      else (.ok .void, m.released id (dueTime start period k)) := by
  have hthread : Eval.thread id m = (.ok (m.thread id), m) := rfl
  have hrelease : Eval.schedule (·.release id (dueTime start period k)) m =
      (.ok (decide ((m.released id (dueTime start period k)).scheduler.time id < limit)),
        m.released id (dueTime start period k)) := by
    rw [Machine.released_eq, Machine.modifyRecord, ← Scheduler.release_fst hm.timeLimit,
      ← Scheduler.release_snd]
    rfl
  rw [activations, bind_of_ok hthread, hm.stopRequested, if_neg Bool.false_ne_true, if_pos hdue,
    bind_of_ok hrelease]
  by_cases htime : (m.released id (dueTime start period k)).scheduler.time id < limit
  · rw [decide_eq_true htime, if_pos rfl, if_pos htime]
  · rw [decide_eq_false htime, if_neg Bool.false_ne_true, if_neg htime]
    rfl

section Run

variable {cost : Nat → Nat} (hm : m.Active id limit) (hbegin : m.scheduler.time id ≤ start)
  (hfits : ∀ k, (∀ j < k, startTime start period cost j < limit) →
    start + k * max period 1 < Word.size64)
  (hbody : ∀ k, (∀ j ≤ k, startTime start period cost j < limit) →
    let before := atActivation id start period body m k
    ∃ v after, body k before = (.ok v, after) ∧ after.Active id limit ∧
      after.scheduler.time id = before.scheduler.time id + cost k)

include hm hbegin hfits hbody

/-- An activation begins at its time (`startTime`), if none before it was too late. -/
theorem active_atActivation {k : Nat} (hk : ∀ j < k, startTime start period cost j < limit) :
    (beforeActivation id start period body m k).Active id limit ∧
      (atActivation id start period body m k).scheduler.time id =
        startTime start period cost k := by
  -- By induction on the activations; the clock goes on where the last one left it.
  induction k with
  | zero =>
    refine ⟨hm, ?_⟩
    rw [atActivation, beforeActivation, Machine.time_released hm.has, dueTime_eq (hfits 0 hk)]
    simpa [startTime] using Nat.max_eq_right hbegin
  | succ k ih =>
    obtain ⟨-, htime⟩ := ih fun j hj => hk j (by omega)
    obtain ⟨v, after, hrun, hactive, hcost⟩ := hbody k fun j hj => hk j (by omega)
    have hafter : beforeActivation id start period body m (k + 1) = after := congrArg Prod.snd hrun
    rw [atActivation, hafter]
    refine ⟨hactive, ?_⟩
    rw [Machine.time_released hactive.has, dueTime_eq (hfits (k + 1) hk), hcost, htime,
      Nat.max_comm]
    rfl

/-- What is left after some `activations`, if none of them was too late. -/
theorem activations_eq_of_lt {n k : Nat} (hk : ∀ j < k, startTime start period cost j < limit) :
    activations id start period body (n + k) 0 m =
      activations id start period body n k (beforeActivation id start period body m k) := by
  induction k generalizing n with
  | zero => rfl
  | succ k ih =>
    have hearlier : ∀ j < k, startTime start period cost j < limit := fun j hj => hk j (by omega)
    obtain ⟨hactive, htime⟩ := active_atActivation hm hbegin hfits hbody hearlier
    obtain ⟨v, after, hrun, -, -⟩ := hbody k fun j hj => hk j (by omega)
    have hafter : beforeActivation id start period body m (k + 1) = after := congrArg Prod.snd hrun
    have hintime : (atActivation id start period body m k).scheduler.time id < limit := by
      rw [htime]
      exact hk k (by omega)
    have hdue := dueTime_lt (hfits k hearlier)
    rw [show n + (k + 1) = n + 1 + k by omega, ih hearlier, activations_apply hactive n hdue,
      hafter]
    exact (if_pos hintime).trans (bind_of_ok hrun)

/-- The thread (`activations`) ends with the first activation that would begin too late. -/
theorem activations_eq_of_late {n rounds : Nat}
    (hearlier : ∀ j < n, startTime start period cost j < limit)
    (hlate : ¬startTime start period cost n < limit) (hrounds : n < rounds) :
    activations id start period body rounds 0 m =
      (.ok .void, atActivation id start period body m n) := by
  obtain ⟨hactive, htime⟩ := active_atActivation hm hbegin hfits hbody hearlier
  obtain ⟨spare, rfl⟩ : ∃ spare, rounds = spare + 1 + n := ⟨rounds - n - 1, by omega⟩
  have htoolate : ¬(atActivation id start period body m n).scheduler.time id < limit := by
    rwa [htime]
  have hdue := dueTime_lt (hfits n hearlier)
  rw [activations_eq_of_lt hm hbegin hfits hbody hearlier, activations_apply hactive spare hdue]
  exact if_neg htoolate

end Run

theorem runThread_eq_activations {timing : Timing} {offset : Nat}
    (htiming : timing.Recurs period offset) (rounds : Nat) (body : Nat → Eval Value) :
    runThread rounds id timing body m =
      activations id (m.scheduler.time id + offset) period body rounds 0 m := by
  cases htiming <;> exact bind_of_ok rfl

end Engine

/-- The activations of a thread begin when they are due (`startTime`), or else when the activation
before has come to its end. Just those take place that begin in time, as do all before them, and
then the thread ends with no result. -/
theorem periodic_activations_follow_schedule (id : ThreadId) (timing : Timing) {period offset : Nat}
    (htiming : timing.Recurs period offset) (body : Nat → Eval Value) (cost : Nat → Nat)
    {limit : Nat} {m : Machine} (hm : m.Active id limit)
    (hfits : ∀ k, (∀ j < k, startTime (m.scheduler.time id + offset) period cost j < limit) →
      m.scheduler.time id + offset + k * max period 1 < Word.size64)
    (hbody : ∀ k, (∀ j ≤ k, startTime (m.scheduler.time id + offset) period cost j < limit) →
      let before := Engine.atActivation id (m.scheduler.time id + offset) period body m k
      ∃ v after, body k before = (.ok v, after) ∧ after.Active id limit ∧
        after.scheduler.time id = before.scheduler.time id + cost k) :
    let start := m.scheduler.time id + offset
    let time := startTime start period cost
    let machine := Engine.atActivation id start period body m
    ∃ n ≤ limit,
      (∀ k, k < n ↔ ∀ j ≤ k, time j < limit) ∧
      (∀ k ≤ n, (machine k).scheduler.time id = time k) ∧
      ∀ rounds, n < rounds → Engine.runThread rounds id timing body m = (.ok .void, machine n) := by
  intro start time machine
  have hbegin : m.scheduler.time id ≤ start := Nat.le_add_right _ _
  obtain ⟨n, hn, hlate, hearlier⟩ := exists_first_late start period cost limit
  refine ⟨n, hn, fun k => ⟨fun hk j hj => hearlier j (by omega), fun hk => ?_⟩, fun k hk => ?_,
    fun rounds hrounds => ?_⟩
  · exact Nat.lt_of_not_le fun hle => hlate (hk n hle)
  · exact (Engine.active_atActivation hm hbegin hfits hbody fun j hj => hearlier j (by omega)).2
  · rw [Engine.runThread_eq_activations htiming]
    exact Engine.activations_eq_of_late hm hbegin hfits hbody hearlier hlate hrounds

/-- Each activation takes one unit of time, but the first one takes twelve. -/
def slowStart (k : Nat) : Nat :=
  if k = 0 then 12 else 1

def slowStartBody (k : Nat) : Eval Value := do
  Eval.charge mainThread (slowStart k)
  return .void

def limitedMachine : Machine :=
  Machine.initial { model := {}, settings := { timeLimit := some 20 } } {}

/-- In the `limitedMachine` the first activation delays the second and the third, but not the
fourth. The fifth one would be too late. -/
theorem periodic_activations_follow_schedule_slow_start :
    (Timing.sporadic 5 9 2).Recurs 5 2 ∧ limitedMachine.Active mainThread 20 ∧
      (List.range 5).map (startTime 2 5 slowStart) = [2, 14, 15, 17, 22] ∧
      let machine := Engine.atActivation mainThread 2 5 slowStartBody limitedMachine
      (∀ k ≤ 4, (machine k).scheduler.time mainThread = startTime 2 5 slowStart k) ∧
        Engine.runThread 9 mainThread (.sporadic 5 9 2) slowStartBody limitedMachine =
          (.ok .void, machine 4) := by
  have hactive : limitedMachine.Active mainThread 20 := ⟨rfl, rfl, rfl⟩
  have htimes : (List.range 5).map (startTime 2 5 slowStart) = [2, 14, 15, 17, 22] := by decide
  -- Only the first four activations can be in time.
  have hfour : ∀ k, (∀ j ≤ k, startTime (limitedMachine.scheduler.time mainThread + 2) 5 slowStart j
      < 20) → k < 4 := by
    intro k hk
    refine Nat.lt_of_not_le fun hle => ?_
    have hfifth := hk 4 hle
    revert hfifth
    decide
  obtain ⟨n, -, hn, htime, hrun⟩ := periodic_activations_follow_schedule mainThread
    (.sporadic 5 9 2) (.sporadic 5 9 2) slowStartBody slowStart hactive
    (fun k hk => by
      have hlt : k < 5 := by
        refine Nat.lt_of_not_le fun hle => ?_
        have hfifth := hk 4 (by omega)
        revert hfifth
        decide
      change 0 + 2 + k * 5 < 0x10000000000000000
      omega)
    (fun k hk => by
      have hlt := hfour k hk
      have hcases : k = 0 ∨ k = 1 ∨ k = 2 ∨ k = 3 := by omega
      rcases hcases with rfl | rfl | rfl | rfl
      all_goals exact ⟨.void, _, rfl, ⟨rfl, rfl, rfl⟩, by decide +kernel⟩)
  have hcount : n = 4 := by
    have h₃ := (hn 3).2 (by decide)
    have h₄ : ¬4 < n := fun h => absurd ((hn 4).1 h 4 (Nat.le_refl 4)) (by decide)
    omega
  subst hcount
  exact ⟨.sporadic 5 9 2, hactive, htimes, htime, hrun 9 (by decide)⟩

end Animator

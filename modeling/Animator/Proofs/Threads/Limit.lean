import Animator.Proofs.Threads.Schedule

/-!
# The limit of periodic threads

The times at which a thread is due are counted in words of 64 bits. A thread that is activated again
and again ends if one of these times is not before the limit and still fits. If they jump over all
the words from the limit on, the sum overflows, and a thread that lets no time pass dies of that.
-/

namespace Animator

/-! ### Times that fit -/

/-- An activation is due when the time is over, and this time fits into a word. -/
def Meets (start period limit : Nat) : Prop :=
  ∃ k, limit ≤ dueTime start period k ∧ dueTime start period k < Word.size64

section Times

variable {start period limit k : Nat}

theorem dueTime_mono {j k : Nat} (hjk : j ≤ k) :
    dueTime start period j ≤ dueTime start period k := by
  have hmul : j * max period 1 ≤ k * max period 1 := Nat.mul_le_mul_right _ hjk
  unfold dueTime
  omega

/-- The limit is met as soon as that many activations have been due (`dueTime`), and until then no
sum overflows. -/
theorem Meets.exists_le (h : Meets start period limit) :
    ∃ n ≤ limit, limit ≤ dueTime start period n ∧
      ∀ k ≤ n, dueTime start period k < Word.size64 := by
  obtain ⟨k, hlate, hfits⟩ := h
  have hlimit : limit ≤ dueTime start period limit := by
    have hmul : limit ≤ limit * max period 1 := Nat.le_mul_of_pos_right limit (by omega)
    unfold dueTime at hlate hfits ⊢
    omega
  rcases Nat.le_total k limit with hle | hle
  · exact ⟨k, hle, hlate, fun j hj => Nat.lt_of_le_of_lt (dueTime_mono hj) hfits⟩
  · refine ⟨limit, Nat.le_refl limit, hlimit, fun j hj => ?_⟩
    exact Nat.lt_of_le_of_lt (dueTime_mono (Nat.le_trans hj hle)) hfits

/-- If no activation meets a limit that fits, then the sum in `dueTime` overflows at some
activation. -/
theorem exists_overflow_of_not_meets (hlimit : limit < Word.size64)
    (h : ¬Meets start period limit) : ∃ n, Word.size64 ≤ dueTime start period n := by
  refine ⟨Word.size64, Nat.le_of_not_lt fun hfits => h ⟨Word.size64, ?_, hfits⟩⟩
  have hmul : Word.size64 ≤ Word.size64 * max period 1 := Nat.le_mul_of_pos_right _ (by omega)
  unfold dueTime
  omega

theorem dueTime_lt_limit (h : ¬Meets start period limit)
    (hfits : dueTime start period k < Word.size64) : dueTime start period k < limit :=
  Nat.lt_of_not_le fun hlate => h ⟨k, hlate, hfits⟩

end Times

/-! ### Runs -/

/-- The thread is known, and the time of periodic threads is `Limited`. -/
structure Machine.Limited (id : ThreadId) (limit : Nat) (m : Machine) : Prop where
  has : m.Has id
  timeLimit : m.scheduler.timeLimit = some limit

namespace Machine

variable {m : Machine} {id : ThreadId} {due limit : Nat}

theorem Limited.active (hm : m.Limited id limit) (hstop : (m.thread id).stopRequested = false) :
    m.Active id limit :=
  ⟨hm.has, hstop, hm.timeLimit⟩

theorem Limited.released (hm : m.Limited id limit) : (m.released id due).Limited id limit := by
  rw [released_eq]
  exact ⟨hm.has.modifyRecord fun _ => rfl, hm.timeLimit⟩

theorem Active.released (hm : m.Active id limit) : (m.released id due).Active id limit := by
  have hlimited : (m.released id due).Limited id limit := Limited.released ⟨hm.has, hm.timeLimit⟩
  refine hlimited.active ?_
  have hthread : ((m.modifyRecord id (·.wokenAt due)).thread id).stopRequested =
      (m.thread id).stopRequested :=
    thread_modifyRecord (·.stopRequested) (fun _ => rfl) fun _ => rfl
  rw [released_eq, hthread]
  exact hm.stopRequested

end Machine

/-- What a thread does succeeds in each activation that is in time. -/
def Steady (id : ThreadId) (limit : Nat) (body : Nat → Eval Value) : Prop :=
  ∀ k m, m.Limited id limit → m.scheduler.time id < limit →
    ∃ v after, body k m = (.ok v, after) ∧ after.Limited id limit

/-- A thread dies: it is cut off, and it has no `Outcome`. -/
def Dies (id : ThreadId) (out : Outcome × Machine) : Prop :=
  out.1 = .error .exhausted ∧ out.2.scheduler.isDead id = true

namespace Engine

variable {id : ThreadId} {start period limit : Nat} {body : Nat → Eval Value} {m : Machine}

/-- A thread `Dies` of an activation whose time does not fit. -/
theorem dies_of_overflow (body : Nat → Eval Value) (hm : m.Active id limit) {k : Nat}
    (hdue : Word.size64 ≤ dueTime start period k) :
    ∃ out, Dies id out ∧ ∀ rounds, activations id start period body (rounds + 1) k m = out := by
  have hthread : Eval.thread id m = (.ok (m.thread id), m) := rfl
  obtain ⟨r, hr⟩ := Option.isSome_iff_exists.1 hm.has
  have hr' : (m.scheduler.die id).record? id = _ :=
    Machine.record?_modifyRecord _ (f := fun r => { r with dead := true }) (fun _ => rfl) hr
  have hdead : (m.scheduler.die id).isDead id = true := by
    rw [Scheduler.isDead, hr', if_pos rfl]
    rfl
  refine ⟨(.error .exhausted, { m with scheduler := m.scheduler.die id }), ⟨rfl, hdead⟩,
    fun rounds => ?_⟩
  rw [activations, bind_of_ok hthread, hm.stopRequested, if_neg Bool.false_ne_true,
    if_neg (Nat.not_lt.2 hdue)]
  exact bind_of_ok rfl

/-- Before one of its `activations` a thread ends, or it dies, or the activation takes place in
time. -/
theorem activations_cases (start period : Nat) (body : Nat → Eval Value) (hm : m.Limited id limit)
    (k : Nat) :
    (∃ out, (∀ rounds, activations id start period body (rounds + 1) k m = out) ∧
      (out.1 = .ok .void ∨ Dies id out ∧ Word.size64 ≤ dueTime start period k)) ∨
    let woken := m.released id (dueTime start period k)
    woken.scheduler.time id < limit ∧
      ∀ rounds, activations id start period body (rounds + 1) k m =
        (body k >>= fun _ => activations id start period body rounds (k + 1)) woken := by
  cases hstop : (m.thread id).stopRequested with
  | true =>
    have hthread : Eval.thread id m = (.ok (m.thread id), m) := rfl
    refine .inl ⟨(.ok .void, m), fun rounds => ?_, .inl rfl⟩
    rw [activations, bind_of_ok hthread, hstop, if_pos rfl]
    rfl
  | false =>
    have hactive := hm.active hstop
    by_cases hdue : dueTime start period k < Word.size64
    · by_cases htime : (m.released id (dueTime start period k)).scheduler.time id < limit
      · refine .inr ⟨htime, fun rounds => ?_⟩
        rw [activations_apply hactive rounds hdue, if_pos htime]
      · refine .inl ⟨(.ok .void, m.released id (dueTime start period k)), fun rounds =>
          ?_, .inl rfl⟩
        rw [activations_apply hactive rounds hdue, if_neg htime]
    · obtain ⟨out, hdies, hout⟩ := dies_of_overflow body hactive (Nat.le_of_not_lt hdue)
      exact .inl ⟨out, hout, .inr ⟨hdies, Nat.le_of_not_lt hdue⟩⟩

/-- A thread ends its `activations` at the latest with the activation that is due when the time is
over. It dies only of a time that does not fit. -/
theorem activations_end (hbody : Steady id limit body) (n : Nat) {k : Nat}
    (hdue : limit ≤ dueTime start period (k + n)) (hm : m.Limited id limit) :
    ∃ out, (∀ rounds, activations id start period body (rounds + n + 1) k m = out) ∧
      (out.1 = .ok .void ∨ Dies id out ∧ Word.size64 ≤ dueTime start period (k + n)) := by
  -- By induction on the number of activations that may still take place.
  induction n generalizing k m with
  | zero =>
    rcases activations_cases start period body hm k with hends | ⟨htime, -⟩
    · exact hends
    · rw [Machine.time_released hm.has, Nat.max_lt] at htime
      exact absurd htime.2 (Nat.not_lt.2 hdue)
  | succ n ih =>
    rcases activations_cases start period body hm k with ⟨out, hout, hends⟩ | ⟨htime, hgo⟩
    · refine ⟨out, fun rounds => hout _, hends.imp_right (And.imp_right fun hsize => ?_)⟩
      exact Nat.le_trans hsize (dueTime_mono (by omega))
    · obtain ⟨v, after, hrun, hafter⟩ := hbody k _ hm.released htime
      have hnext : k + (n + 1) = k + 1 + n := by omega
      rw [hnext] at hdue ⊢
      obtain ⟨out, hout, hends⟩ := ih hdue hafter
      refine ⟨out, fun rounds => ?_, hends⟩
      rw [hgo, bind_of_ok hrun]
      exact hout rounds

/-- A thread that lets no time pass goes on with its `activations` until a time does not fit, if no
activation is late. -/
theorem idle_activations_die (hmeets : ¬Meets start period limit) (n : Nat) {k : Nat}
    (hdue : Word.size64 ≤ dueTime start period (k + n)) (hm : m.Active id limit)
    (htime : m.scheduler.time id < limit) :
    ∃ out, Dies id out ∧
      ∀ rounds, activations id start period (fun _ => pure .void) (rounds + n + 1) k m = out := by
  induction n generalizing k m with
  | zero => exact dies_of_overflow _ hm hdue
  | succ n ih =>
    by_cases hfits : dueTime start period k < Word.size64
    · let woken := m.released id (dueTime start period k)
      have hwoken : woken.scheduler.time id < limit := by
        rw [Machine.time_released hm.has]
        exact Nat.max_lt.2 ⟨htime, dueTime_lt_limit hmeets hfits⟩
      have hnext : k + (n + 1) = k + 1 + n := by omega
      obtain ⟨out, hdies, hout⟩ := ih (hnext ▸ hdue) hm.released hwoken
      refine ⟨out, hdies, fun rounds => ?_⟩
      rw [activations_apply hm _ hfits, if_pos hwoken]
      exact hout rounds
    · obtain ⟨out, hdies, hout⟩ := dies_of_overflow _ hm (Nat.le_of_not_lt hfits)
      exact ⟨out, hdies, fun rounds => hout _⟩

end Engine

/-- If an activation of a thread is due when the time is over (`Meets`), and this time fits into a
word, then the thread ends with no result after finitely many activations, and no time up to there
overflows. Otherwise it does so or dies, after finitely many activations too, and if it lets no time
pass and nobody asks it to stop, it dies. -/
theorem periodic_thread_ends_at_limit (id : ThreadId) (timing : Timing) {period offset : Nat}
    (htiming : timing.Recurs period offset) {limit : Nat} (hlimit : limit < Word.size64)
    {m : Machine}
    (hm : m.Limited id limit) :
    let start := m.scheduler.time id + offset
    let run := fun body rounds => Engine.runThread rounds id timing body m
    (Meets start period limit → ∀ body, Steady id limit body →
      ∃ n ≤ limit, (∀ k ≤ n, dueTime start period k < Word.size64) ∧
        ∃ final, ∀ rounds, n < rounds → run body rounds = (.ok .void, final)) ∧
    (¬Meets start period limit →
      (∀ body, Steady id limit body →
        ∃ n out, (out.1 = .ok .void ∨ Dies id out) ∧ ∀ rounds, n < rounds → run body rounds = out) ∧
      ((m.thread id).stopRequested = false →
        ∃ n out, Dies id out ∧ ∀ rounds, n < rounds → run (fun _ => pure .void) rounds = out)) := by
  intro start run
  have hrun : ∀ body rounds,
      run body rounds = Engine.activations id start period body rounds 0 m :=
    fun body rounds => Engine.runThread_eq_activations htiming rounds body
  have hspare : ∀ {n rounds : Nat}, n < rounds → ∃ spare, rounds = spare + n + 1 := by
    intro n rounds h
    exact ⟨rounds - n - 1, by omega⟩
  refine ⟨fun hmeets body hbody => ?_, fun hmeets => ?_⟩
  · obtain ⟨n, hn, hlate, hfits⟩ := hmeets.exists_le
    obtain ⟨out, hout, hends⟩ := Engine.activations_end hbody n (k := 0) (by rwa [Nat.zero_add]) hm
    refine ⟨n, hn, hfits, out.2, fun rounds hrounds => ?_⟩
    obtain ⟨spare, rfl⟩ := hspare hrounds
    rw [hrun, hout]
    rcases hends with hvoid | ⟨-, hsize⟩
    · exact Prod.ext hvoid rfl
    · rw [Nat.zero_add] at hsize
      exact absurd (hfits n (Nat.le_refl n)) (Nat.not_lt.2 hsize)
  · obtain ⟨n, hn⟩ := exists_overflow_of_not_meets hlimit hmeets
    rw [← Nat.zero_add n] at hn
    refine ⟨fun body hbody => ?_, fun hstop => ?_⟩
    · have hlate : limit ≤ dueTime start period (0 + n) := by omega
      obtain ⟨out, hout, hends⟩ := Engine.activations_end hbody n hlate hm
      refine ⟨n, out, hends.imp_right And.left, fun rounds hrounds => ?_⟩
      obtain ⟨spare, rfl⟩ := hspare hrounds
      rw [hrun, hout]
    · by_cases hbegin : m.scheduler.time id < limit
      · obtain ⟨out, hdies, hout⟩ :=
          Engine.idle_activations_die hmeets n hn (hm.active hstop) hbegin
        refine ⟨n, out, hdies, fun rounds hrounds => ?_⟩
        obtain ⟨spare, rfl⟩ := hspare hrounds
        rw [hrun, hout]
      -- The clock is late already, so the time of the first activation does not fit.
      · have hfirst : Word.size64 ≤ dueTime start period 0 := by
          refine Nat.le_of_not_lt fun hfits => hbegin ?_
          have hdue := dueTime_lt_limit hmeets hfits
          have hstart : start ≤ dueTime start period 0 := Nat.le_add_right _ _
          omega
        obtain ⟨out, hdies, hout⟩ := Engine.dies_of_overflow _ (hm.active hstop) hfirst
        refine ⟨0, out, hdies, fun rounds hrounds => ?_⟩
        obtain ⟨spare, rfl⟩ := hspare hrounds
        rw [hrun]
        exact hout spare

/-- A thread of the `limitedMachine` with an unsteady body ends at its limit. -/
theorem periodic_thread_ends_at_limit_slow_start :
    (Timing.sporadic 5 9 2).Recurs 5 2 ∧ limitedMachine.Limited mainThread 20 ∧ Meets 2 5 20 ∧
      Steady mainThread 20 slowStartBody ∧
      ∃ n ≤ 20, (∀ k ≤ n, dueTime 2 5 k < Word.size64) ∧ ∃ final, ∀ rounds, n < rounds →
        Engine.runThread rounds mainThread (.sporadic 5 9 2) slowStartBody limitedMachine =
          (.ok .void, final) := by
  have hm : limitedMachine.Limited mainThread 20 := ⟨rfl, rfl⟩
  have hmeets : Meets 2 5 20 := ⟨4, by decide, by decide⟩
  have hbody : Steady mainThread 20 slowStartBody := by
    intro k m hm htime
    have hfits : m.scheduler.fits mainThread (slowStart k) = true := by
      have hcost : slowStart k ≤ 12 := by
        unfold slowStart
        split <;> omega
      refine decide_eq_true ?_
      simp only [Word.size64]
      omega
    have hcharge := Eval.charge_apply mainThread (slowStart k) m
    rw [hfits, if_pos rfl] at hcharge
    exact ⟨.void, _, bind_of_ok hcharge, hm.has.modifyRecord fun _ => rfl, hm.timeLimit⟩
  have hends := (periodic_thread_ends_at_limit mainThread (.sporadic 5 9 2) (.sporadic 5 9 2)
    (by decide) hm).1
  exact ⟨.sporadic 5 9 2, hm, hmeets, hbody, hends hmeets slowStartBody hbody⟩

def longestPeriod : Nat := 0x7FFFFFFFFFFFFFFF

/-- A machine with as much time as a clock can count. -/
def unhurriedMachine : Machine :=
  Machine.initial { model := {}, settings := { timeLimit := some (Word.size64 - 1) } } {}

/-- In the `unhurriedMachine` its second activation is due just before the limit, and the time of
the third one does not fit. The thread dies. -/
theorem periodic_thread_jumps_over_limit :
    unhurriedMachine.Active mainThread (Word.size64 - 1) ∧
      unhurriedMachine.scheduler.time mainThread = 0 ∧
      ∃ out, Dies mainThread out ∧ ∀ rounds, 2 < rounds →
        Engine.runThread rounds mainThread (.periodic longestPeriod 0 0 longestPeriod)
          (fun _ => pure .void) unhurriedMachine = out := by
  have hm : unhurriedMachine.Active mainThread (Word.size64 - 1) := ⟨rfl, rfl, rfl⟩
  have hmeets : ¬Meets longestPeriod longestPeriod (Word.size64 - 1) := by
    rintro ⟨k, hlate, hfits⟩
    have hperiod : max longestPeriod 1 = 0x7FFFFFFFFFFFFFFF := rfl
    rw [dueTime, hperiod] at hlate hfits
    simp only [longestPeriod, Word.size64] at hlate hfits
    omega
  obtain ⟨out, hdies, hout⟩ :=
    Engine.idle_activations_die hmeets 2 (k := 0) (by decide) hm (by decide)
  refine ⟨hm, rfl, out, hdies, fun rounds hrounds => ?_⟩
  obtain ⟨spare, rfl⟩ : ∃ spare, rounds = spare + 2 + 1 := ⟨rounds - 3, by omega⟩
  rw [Engine.runThread_eq_activations (.periodic longestPeriod 0 0 longestPeriod)]
  exact hout spare

end Animator

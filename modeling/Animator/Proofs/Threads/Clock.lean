import Mathlib.Algebra.GroupWithZero.Nat
import Animator.Proofs.Guards

/-!
# Virtual clocks

Cycles are turned into nanoseconds by the clock rate of a processor, and the clock of a thread goes
on by the durations that the thread is charged. Both are exact as long as they fit into 64 bits.
Beyond that a duration wraps around, and a clock stands, since its thread has died.
-/

namespace Animator

/-! ### Words that count -/

/-- From `start` on, `word` counts up to `exact`, as far as it can. -/
structure Word.Counts (start exact word : Nat) : Prop where
  ge : start ≤ word
  le : word ≤ exact
  /-- A number that fits is counted exactly. -/
  eq : exact < size64 → word = exact

namespace Word.Counts

variable {start exact word : Nat}

theorem refl (n : Nat) : Counts n n n :=
  ⟨Nat.le_refl n, Nat.le_refl n, fun _ => rfl⟩

theorem add (h : Counts start exact word) (n : Nat) :
    Counts start (exact + n) (if word + n < size64 then word + n else word) := by
  obtain ⟨hge, hle, heq⟩ := h
  split
  · refine ⟨by omega, by omega, fun hfits => ?_⟩
    rw [heq (by omega)]
  · refine ⟨hge, by omega, fun hfits => ?_⟩
    have := heq (by omega)
    omega

end Word.Counts

/-! ### Clock rates -/

namespace Scheduler

variable {s : Scheduler} {cpu n : Nat}

/-- A `Scheduler` that was made from settings. Processors are defined, and nothing else that happens
to it has to do with clock `rates`. -/
inductive Built : Scheduler → Prop where
  | ofSettings (hz : Nat) (timeLimit : Option Nat) : Built (ofSettings hz timeLimit)
  | defineCpu {s : Scheduler} (cpu hz : Nat) (hs : Built s) : Built (s.defineCpu cpu hz)
  | keep {s s' : Scheduler} (hs : Built s) (hrates : s'.rates = s.rates)
    (hdefault : s'.defaultHz = s.defaultHz) : Built s'

theorem rate_ofSettings (hz : Nat) (timeLimit : Option Nat) (cpu : Nat) :
    (ofSettings hz timeLimit).rate cpu = max hz 1 :=
  rfl

theorem rate_defineCpu (s : Scheduler) (cpu hz cpu' : Nat) :
    (s.defineCpu cpu hz).rate cpu' = if cpu' = cpu then max hz 1 else s.rate cpu' := by
  by_cases hcpu : cpu' = cpu
  · simp [rate, Scheduler.defineCpu, hcpu]
  · have hne : ¬cpu = cpu' := fun h => hcpu h.symm
    simp [rate, Scheduler.defineCpu, hcpu, hne]

theorem Built.rate_pos (hs : s.Built) (cpu : Nat) : 0 < s.rate cpu := by
  induction hs with
  | ofSettings hz timeLimit =>
    rw [rate_ofSettings]
    omega
  | defineCpu cpu' hz _ ih =>
    rw [rate_defineCpu]
    split
    · omega
    · exact ih
  | keep _ hrates hdefault ih =>
    unfold rate at ih ⊢
    rwa [hrates, hdefault]

/-! ### Cycles -/

theorem cyclesToDuration_eq (hfits : n * 1000000000 / s.rate cpu < Word.size64) :
    s.cyclesToDuration cpu n = n * 1000000000 / s.rate cpu :=
  Nat.mod_eq_of_lt hfits

theorem cyclesToDuration_bounds (hrate : 0 < s.rate cpu)
    (hfits : n * 1000000000 / s.rate cpu < Word.size64) :
    s.cyclesToDuration cpu n * s.rate cpu ≤ n * 1000000000 ∧
      n * 1000000000 < (s.cyclesToDuration cpu n + 1) * s.rate cpu := by
  rw [cyclesToDuration_eq hfits]
  refine ⟨Nat.div_mul_le_self _ _, ?_⟩
  rw [Nat.mul_comm (_ + 1)]
  exact Nat.lt_mul_div_succ _ hrate

theorem cyclesToDuration_mono {n' : Nat} (hle : n' ≤ n)
    (hfits : n * 1000000000 / s.rate cpu < Word.size64) :
    s.cyclesToDuration cpu n' ≤ s.cyclesToDuration cpu n := by
  have hdiv : n' * 1000000000 / s.rate cpu ≤ n * 1000000000 / s.rate cpu :=
    Nat.div_le_div_right (Nat.mul_le_mul_right _ hle)
  rwa [cyclesToDuration_eq hfits, cyclesToDuration_eq (Nat.lt_of_le_of_lt hdiv hfits)]

end Scheduler

/-! ### Clocks -/

namespace Machine

/-- Time passes for a thread, from one machine to another: it is charged, or it executes statements
with a fixed `Cost`. In between anything may happen that leaves its clock alone. The list has the
durations that the thread is charged. -/
inductive Elapses (P : Program) (id : ThreadId) (m : Machine) : List Nat → Machine → Prop where
  | start : Elapses P id m [] m
  | still {ds : List Nat} {m₁ m₂ : Machine} (h : Elapses P id m ds m₁) (hhas : m₂.Has id)
      (htime : m₂.scheduler.time id = m₁.scheduler.time id) : Elapses P id m ds m₂
  | charge {ds : List Nat} {m₁ : Machine} (duration : Nat) (h : Elapses P id m ds m₁) :
    Elapses P id m (ds ++ [duration]) { m₁ with scheduler := m₁.scheduler.charge id duration }
  /-- A statement with a fixed `Cost` is charged if its body comes to its end. Its cost may take
  some time as well. -/
  | timed {ds : List Nat} {bound : Nat} {cost : Engine.Cost} {e : Expr} {body s : Stmt}
      {c : Context}
      {m₁ m₂ m₃ : Machine} {n : Nat} (hthread : c.thread = id) (hkind : s.kind = cost.kind e body)
      (hhas : m₁.Has id) (htimed : m₁.scheduler.isTimed id = false)
      (harrive : (P.engine bound).arrive (.stmt s) c m₁ = (.ok (), m₂))
      (hamount : (P.engine bound).amount e s.location c m₂ = (.ok n, m₃))
      (h : Elapses P id m ds m₃) :
    Elapses P id m
      (ds ++ if ((P.engine bound).stmt body c (Guard.timed.enter id m₃)).1.isOk then
        [cost.time n id m₃] else [])
      ((P.engine (bound + 1)).stmt s c m₁).2
  /-- What is inside of such a statement is not charged. -/
  | nested {ds : List Nat} {bound : Nat} {piece : Piece} {c : Context} {m₁ : Machine}
      (hthread : c.thread = id) (htimed : m₁.scheduler.isTimed id = true)
      (h : Elapses P id m ds m₁) : Elapses P id m ds (piece.run (P.engine bound) c m₁).2

variable {P : Program} {id : ThreadId} {m m' : Machine} {ds : List Nat}

/-- The clock of a thread goes on by the sum of the durations that it is charged (`Elapses`), as far
as it can count. -/
theorem Elapses.counts (h : m.Elapses P id ds m') (hm : m.Has id) :
    m'.Has id ∧ Word.Counts (m.scheduler.time id) (m.scheduler.time id + ds.sum)
      (m'.scheduler.time id) := by
  induction h with
  | start => exact ⟨hm, .refl _⟩
  | still _ hhas htime ih => exact ⟨hhas, htime ▸ ih.2⟩
  | charge duration _ ih =>
    obtain ⟨hhas, hcounts⟩ := ih
    refine ⟨hhas.modifyRecord fun _ => rfl, ?_⟩
    rw [hhas.time_charge, List.sum_append, List.sum_singleton, ← Nat.add_assoc]
    exact hcounts.add duration
  | @timed ds bound cost e body s c m₁ m₂ m₃ n hthread hkind hhas htimed harrive hamount _ ih =>
    subst hthread
    obtain ⟨hm₃, htimed₃⟩ := guardEffect.isTimed_of_amount hhas harrive hamount
    have hhas' := ((guardEffect.rel_piece (guardEffect.sound P (bound + 1)) (.node (.stmt s)) c
      m₁).1.isTimed hhas).1
    refine ⟨hhas', ?_⟩
    have hcharged : m₃.Charged c.thread (cost.time n c.thread m₃) _
        ((P.engine bound).spending (cost.time n c.thread m₃) body c m₃) :=
      guardEffect.spending hm₃ _
    rw [Engine.stmt_of_amount hkind harrive hamount (htimed₃.trans htimed)]
    split
    · next hok =>
      have hadd := ih.2.add (cost.time n c.thread m₃)
      rw [List.sum_append, List.sum_singleton, ← Nat.add_assoc]
      by_cases hfits : m₃.scheduler.time c.thread + cost.time n c.thread m₃ < Word.size64
      · rw [if_pos hfits] at hadd
        rwa [(hcharged.counted hok hfits).2]
      · rw [if_neg hfits] at hadd
        rwa [(hcharged.overflow hok hfits).2.2]
    · next hok =>
      rw [List.append_nil, (hcharged.early (Bool.eq_false_of_not_eq_true hok)).2]
      exact ih.2
  | @nested ds bound piece c m₁ hthread htimed _ ih =>
    subst hthread
    have hguarded := (guardEffect.rel_piece (guardEffect.sound P bound) piece c m₁).1
    exact ⟨(hguarded.isTimed ih.1).1, hguarded.time htimed ▸ ih.2⟩

end Machine

/-- The clock `rate` of a processor is the one that it was defined with, or else the one of the
settings, and never zero. The duration of some cycles is rounded down, and more cycles do not take
less time, if it fits into a word. The clock of a thread never goes back. It goes on by the sum of
the durations that the thread is charged, if this sum fits, and never by more. -/
theorem virtual_clocks_exact (P : Program) (id : ThreadId) :
    (∀ hz timeLimit cpu, (Scheduler.ofSettings hz timeLimit).rate cpu = max hz 1) ∧
    (∀ (s : Scheduler) (cpu hz cpu' : Nat),
      (s.defineCpu cpu hz).rate cpu' = if cpu' = cpu then max hz 1 else s.rate cpu') ∧
    (∀ s : Scheduler, s.Built → ∀ cpu, 0 < s.rate cpu ∧
      ∀ n, n * 1000000000 / s.rate cpu < Word.size64 →
        s.cyclesToDuration cpu n * s.rate cpu ≤ n * 1000000000 ∧
        n * 1000000000 < (s.cyclesToDuration cpu n + 1) * s.rate cpu ∧
        ∀ n' ≤ n, s.cyclesToDuration cpu n' ≤ s.cyclesToDuration cpu n) ∧
    ∀ (m : Machine) (ds : List Nat) (m' : Machine), m.Has id → m.Elapses P id ds m' →
      m.scheduler.time id ≤ m'.scheduler.time id ∧
      m'.scheduler.time id ≤ m.scheduler.time id + ds.sum ∧
      (m.scheduler.time id + ds.sum < Word.size64 →
        m'.scheduler.time id = m.scheduler.time id + ds.sum) := by
  refine ⟨Scheduler.rate_ofSettings, Scheduler.rate_defineCpu, fun s hs cpu => ?_,
    fun m ds m' hm helapses => ?_⟩
  · have hrate := hs.rate_pos cpu
    refine ⟨hrate, fun n hfits => ?_⟩
    obtain ⟨hle, hlt⟩ := Scheduler.cyclesToDuration_bounds hrate hfits
    exact ⟨hle, hlt, fun n' hn' => Scheduler.cyclesToDuration_mono hn' hfits⟩
  · obtain ⟨-, hcounts⟩ := helapses.counts hm
    exact ⟨hcounts.ge, hcounts.le, hcounts.eq⟩

def readyMachine : Machine :=
  ((Program.engine { model := {} } 9).initialise (Machine.initial { model := {} } {})).2

/-- A thread of the `readyMachine` is charged, and then executes a statement with a fixed cost in
which there is another one. -/
theorem Machine.elapses_outerCost :
    ∃ m', readyMachine.Elapses { model := {} } mainThread [40, 3] m' := by
  let P : Program := { model := {} }
  let E := P.engine 9
  let c : Context := .binding []
  let charged := { readyMachine with scheduler := readyMachine.scheduler.charge mainThread 40 }
  let arrived := (E.arrive (.stmt outerCost) c charged).2
  let begun := (E.amount (nanoseconds 3) outerCost.location c arrived).2
  have harrive : (E.arrive (.stmt outerCost) c charged).1.toOption = some () := by decide +kernel
  have hamount : (E.amount (nanoseconds 3) outerCost.location c arrived).1.toOption = some 3 := by
    decide +kernel
  have hok : (E.stmt innerCost c (Guard.timed.enter c.thread begun)).1.isOk = true := by
    decide +kernel
  have hhas : charged.Has mainThread ∧ begun.Has mainThread := by decide +kernel
  have hcharged : readyMachine.Elapses P mainThread [40] charged := .charge 40 .start
  have hbegun : readyMachine.Elapses P mainThread [40] begun :=
    .still hcharged hhas.2 (by decide +kernel)
  have hkind : outerCost.kind = Engine.Cost.duration.kind (nanoseconds 3) innerCost := rfl
  have helapses := Machine.Elapses.timed rfl hkind hhas.1 (by decide +kernel)
    (eq_ok_of_toOption harrive) (eq_ok_of_toOption hamount) hbegun
  dsimp only [begun, arrived, E] at hok
  rw [if_pos hok] at helapses
  exact ⟨_, helapses⟩

/-- A slow processor, by `cyclesToDuration`, and a thread that is charged forty and then three
nanoseconds. -/
theorem virtual_clocks_exact_slow_processor :
    let s := (Scheduler.ofSettings 1000000 none).defineCpu 7 3
    s.cyclesToDuration 7 10 * 3 ≤ 10000000000 ∧ 10000000000 < (s.cyclesToDuration 7 10 + 1) * 3 ∧
      s.cyclesToDuration 0 10 = 10000 ∧
      ∃ m', readyMachine.Elapses { model := {} } mainThread [40, 3] m' ∧
        m'.scheduler.time mainThread = 43 := by
  intro s
  obtain ⟨-, hdefined, hcycles, hclocks⟩ := virtual_clocks_exact { model := {} } mainThread
  have hbuilt : s.Built := .defineCpu 7 3 (.ofSettings 1000000 none)
  have hrate : s.rate 7 = 3 := hdefined _ 7 3 7
  obtain ⟨hle, hlt, -⟩ := (hcycles s hbuilt 7).2 10 (by rw [hrate]; decide)
  rw [hrate] at hle hlt
  obtain ⟨m', helapses⟩ := Machine.elapses_outerCost
  have hready : readyMachine.Has mainThread := by decide +kernel
  have hbegin : readyMachine.scheduler.time mainThread = 0 := by decide +kernel
  have htime := (hclocks readyMachine [40, 3] m' hready helapses).2.2 (by rw [hbegin]; decide)
  exact ⟨hle, hlt, by decide, m', helapses, by rw [htime, hbegin]; rfl⟩

/-- In `cyclesToDuration` a processor of one cycle in a second seems to be done with more cycles in
less time, and the clock of a thread that is charged too much stands. -/
theorem virtual_clocks_overflow :
    let s := Scheduler.ofSettings 1 none
    s.Built ∧ s.cyclesToDuration 0 18446744073 = 18446744073000000000 ∧
      s.cyclesToDuration 0 18446744074 = 290448384 ∧
      ∃ m', readyMachine.Elapses { model := {} } mainThread [Word.size64 - 1, 1] m' ∧
        m'.scheduler.time mainThread = Word.size64 - 1 ∧
        m'.scheduler.isDead mainThread = true :=
  ⟨.ofSettings 1 none, by decide, by decide, _, .charge 1 (.charge (Word.size64 - 1) .start),
    by decide +kernel, by decide +kernel⟩

end Animator

import Animator.Proofs.Logic.Entry
import Animator.Proofs.Success
import Mathlib.Tactic.Linarith
import Mathlib.Tactic.Ring

/-!
# Loops that count

A loop with an index executes its body in rounds, one for each integer. It tests the integer against
the bound before a round, and after it adds the step, unless the sum does not fit in a word. This is
compared with the arithmetic progression of the integers that the loop is meant for.
-/

namespace Animator

/-! ### Arithmetic progressions -/

section Progression

variable {start stop step : Int}

theorem countsOn_iff (hstep : step ≠ 0) (i : Int) :
    countsOn stop step i = true ↔ if 0 < step then i ≤ stop else stop ≤ i := by
  simp only [countsOn, Bool.or_eq_true, Bool.and_eq_true, decide_eq_true_eq]
  split <;> omega

theorem inIntRange_iff {n : Int} :
    Value.inIntRange n = true ↔ Word.minInt ≤ n ∧ n ≤ Word.maxInt := by
  simp [Value.inIntRange]

/-- How many integers at equal distances there are from one bound to another. -/
def roundsBetween (start stop step : Int) : Nat :=
  if 0 < step then
    if start ≤ stop then ((stop - start) / step).toNat + 1 else 0
  else
    if stop ≤ start then ((start - stop) / -step).toNat + 1 else 0

theorem lt_ediv_toNat_iff {distance step : Int} (hstep : 0 < step) (hdistance : 0 ≤ distance)
    (k : Nat) : k < (distance / step).toNat + 1 ↔ k * step ≤ distance := by
  have hnonneg : 0 ≤ distance / step := Int.ediv_nonneg hdistance hstep.le
  rw [← Int.le_ediv_iff_mul_le hstep]
  omega

theorem lt_roundsBetween_iff (hstep : step ≠ 0) (k : Nat) :
    k < roundsBetween start stop step ↔ countsOn stop step (start + k * step) = true := by
  rw [countsOn_iff hstep, roundsBetween]
  have hk : (0 : Int) ≤ k := Int.natCast_nonneg k
  by_cases hpos : 0 < step
  · have hforward : 0 ≤ k * step := Int.mul_nonneg hk hpos.le
    rw [if_pos hpos, if_pos hpos]
    by_cases hle : start ≤ stop
    · rw [if_pos hle, lt_ediv_toNat_iff hpos (by omega)]
      omega
    · rw [if_neg hle]
      omega
  · -- Counting down is counting up with the bounds exchanged.
    have hneg : 0 < -step := by omega
    have hbackward : 0 ≤ k * -step := Int.mul_nonneg hk hneg.le
    rw [Int.mul_neg] at hbackward
    rw [if_neg hpos, if_neg hpos]
    by_cases hle : stop ≤ start
    · rw [if_pos hle, lt_ediv_toNat_iff hneg (by omega), Int.mul_neg]
      omega
    · rw [if_neg hle]
      omega

theorem inIntRange_of_countsOn (hstep : step ≠ 0) (hstart : Value.inIntRange start)
    (hstop : Value.inIntRange stop) {k : Nat} (hk : countsOn stop step (start + k * step) = true) :
    Value.inIntRange (start + k * step) := by
  rw [inIntRange_iff] at hstart hstop ⊢
  rw [countsOn_iff hstep] at hk
  split at hk
  · next hpos =>
    have hforward : 0 ≤ k * step := Int.mul_nonneg (Int.natCast_nonneg k) hpos.le
    omega
  · next hpos =>
    have hbackward : k * step ≤ 0 :=
      Int.mul_nonpos_of_nonneg_of_nonpos (Int.natCast_nonneg k) (by omega)
    omega

end Progression

/-! ### Rounds -/

theorem Value.isVoid_iff {v : Value} : v.isVoid = true ↔ v = .void := by
  cases v <;> simp [Value.isVoid]

theorem eq_ok_void_of_any {r : Except Halt Value} (h : r.toOption.any Value.isVoid = true) :
    r = .ok .void := by
  cases r with
  | error halt => cases h
  | ok v => exact congrArg _ (Value.isVoid_iff.1 h)

namespace Engine

variable (E : Engine) (var : Name) (body : Stmt) (location : Location) (c : Context)

/-- One `round` of a loop: the body is executed in a scope of its own, where the variable stands for
an integer. -/
def round (i : Int) : Eval Value := do
  let child ← Eval.derive c "for" location
  E.stmt body (child.bind var (.int i))

/-- The machine after some rounds, of which the first is for an integer and the others follow at
equal distances. -/
def afterRounds (start step : Int) (m : Machine) : Nat → Machine
  | 0 => m
  | k + 1 => (E.round var body location c (start + k * step) (afterRounds start step m k)).2

/-- A `round` of such a loop comes to its end, and the loop goes on. -/
def Continues (start step : Int) (m : Machine) (k : Nat) : Prop :=
  (E.round var body location c (start + k * step)
    (E.afterRounds var body location c start step m k)).1 = .ok .void

variable {E var body location c} {start stop step i : Int} {m : Machine}

/-- A `countingLoop` that does not go on leaves everything as it is. -/
theorem countingLoop_of_not (hgo : ¬countsOn stop step i) :
    E.countingLoop var stop step body location c i m = (.ok .void, m) := by
  unfold countingLoop
  rw [dif_neg hgo]
  rfl

theorem countingLoop_eq_round (hgo : countsOn stop step i) :
    E.countingLoop var stop step body location c i m =
      (E.round var body location c i >>= fun v =>
        if !v.isVoid then pure v
        else if Value.inIntRange (i + step) then
          E.countingLoop var stop step body location c (i + step)
        else pure .void) m := by
  rw [countingLoop, dif_pos hgo, round, bind_assoc]

/-- After a `round` that came to its end, the loop goes on with the next integer if it fits. -/
theorem countingLoop_of_void (hgo : countsOn stop step i)
    (hround : (E.round var body location c i m).1 = .ok .void) :
    E.countingLoop var stop step body location c i m =
      if Value.inIntRange (i + step) then
        E.countingLoop var stop step body location c (i + step) (E.round var body location c i m).2
      else (.ok .void, (E.round var body location c i m).2) := by
  have hran : E.round var body location c i m = (.ok .void, (E.round var body location c i m).2) :=
    Prod.ext hround rfl
  rw [countingLoop_eq_round hgo, bind_of_ok hran]
  cases Value.inIntRange (i + step) <;> rfl

theorem countingLoop_of_ne_void (hgo : countsOn stop step i)
    (hround : (E.round var body location c i m).1 ≠ .ok .void) :
    E.countingLoop var stop step body location c i m = E.round var body location c i m := by
  rw [countingLoop_eq_round hgo]
  rcases hran : E.round var body location c i m with ⟨r, m₁⟩
  rw [hran] at hround
  cases r with
  | error halt => exact bind_of_error hran
  | ok v =>
    have hv : ¬v.isVoid := fun hv => hround (congrArg _ (Value.isVoid_iff.1 hv))
    rw [bind_of_ok hran, Bool.eq_false_of_not_eq_true hv]
    rfl

section Rounds

variable (hstep : step ≠ 0) (hstart : Value.inIntRange start)
  (hstop : Value.inIntRange stop)

include hstep hstart hstop

/-- What is left of a `countingLoop` after some rounds is the loop from the next integer on. -/
theorem countingLoop_eq_of_lt {k : Nat} (hk : k < roundsBetween start stop step)
    (hvoid : ∀ j < k, E.Continues var body location c start step m j) :
    E.countingLoop var stop step body location c start m =
      E.countingLoop var stop step body location c (start + k * step)
        (E.afterRounds var body location c start step m k) := by
  induction k with
  | zero => simp [afterRounds]
  | succ k ih =>
    have hgo : ∀ j < roundsBetween start stop step, countsOn stop step (start + j * step) = true :=
      fun j => (lt_roundsBetween_iff hstep j).1
    have hnext : start + k * step + step = start + (k + 1 : Nat) * step := by
      push_cast
      ring
    rw [ih (by omega) fun j hj => hvoid j (by omega),
      countingLoop_of_void (hgo k (by omega)) (hvoid k (by omega)), hnext,
      if_pos (inIntRange_of_countsOn hstep hstart hstop (hgo (k + 1) hk))]
    rfl

theorem countingLoop_of_all
    (hvoid : ∀ k < roundsBetween start stop step, E.Continues var body location c start step m k) :
    E.countingLoop var stop step body location c start m =
      (.ok .void,
        E.afterRounds var body location c start step m (roundsBetween start stop step)) := by
  have hend : ¬countsOn stop step (start + roundsBetween start stop step * step) := by
    rw [← lt_roundsBetween_iff hstep]
    exact Nat.lt_irrefl _
  cases hn : roundsBetween start stop step with
  | zero =>
    rw [hn, Nat.cast_zero, Int.zero_mul, Int.add_zero] at hend
    exact countingLoop_of_not hend
  | succ n =>
    rw [hn] at hvoid hend
    have hlast : n < roundsBetween start stop step := by omega
    have hnext : start + n * step + step = start + (n + 1 : Nat) * step := by
      push_cast
      ring
    -- After the last round the next integer is beyond the bound, or does not even fit.
    rw [countingLoop_eq_of_lt hstep hstart hstop hlast fun j hj => hvoid j (by omega),
      countingLoop_of_void ((lt_roundsBetween_iff hstep n).1 hlast) (hvoid n (by omega)), hnext,
      countingLoop_of_not hend]
    exact ite_self _

theorem countingLoop_of_first {k : Nat} (hk : k < roundsBetween start stop step)
    (hvoid : ∀ j < k, E.Continues var body location c start step m j)
    (hfirst : ¬E.Continues var body location c start step m k) :
    E.countingLoop var stop step body location c start m =
      E.round var body location c (start + k * step)
        (E.afterRounds var body location c start step m k) := by
  rw [countingLoop_eq_of_lt hstep hstart hstop hk hvoid]
  exact countingLoop_of_ne_void ((lt_roundsBetween_iff hstep k).1 hk) hfirst

end Rounds

theorem forIndex_eq {first last : Expr} {distance : Option Expr} {m₁ m₂ m₃ : Machine}
    (hstart : E.int first c m = (.ok start, m₁)) (hstop : E.int last c m₁ = (.ok stop, m₂))
    (hdistance : E.stride distance c m₂ = (.ok step, m₃)) (hstep : step ≠ 0) :
    E.forIndex var first last distance body location c m =
      E.countingLoop var stop step body location c start m₃ := by
  rw [forIndex, bind_of_ok hstart, bind_of_ok hstop, bind_of_ok hdistance, if_neg hstep]

end Engine

/-- A loop from one integer to another executes its body for an arithmetic progression, in order, as
long as the integers are within the bounds. All of them fit in a word. If every `round` comes to its
end then the result is `void`, and otherwise the first round that does not is the last one, and its
outcome is that of the loop. -/
theorem forIndex_arithmetic_progression (E : Engine) (var : Name) (first last : Expr)
    (distance : Option Expr) (body : Stmt) (location : Location) (c : Context)
    {m m₁ m₂ m₃ : Machine}
    {start stop step : Int} (hstart : E.int first c m = (.ok start, m₁))
    (hstop : E.int last c m₁ = (.ok stop, m₂)) (hdistance : E.stride distance c m₂ = (.ok step, m₃))
    (hfits : Value.inIntRange start ∧ Value.inIntRange stop) (hstep : step ≠ 0) :
    let index (k : Nat) : Int := start + k * step
    let machine := E.afterRounds var body location c start step m₃
    let round (k : Nat) := E.round var body location c (index k) (machine k)
    let out := E.forIndex var first last distance body location c m
    ∃ n : Nat,
      (∀ k, k < n ↔ if 0 < step then index k ≤ stop else stop ≤ index k) ∧
      (∀ k < n, Value.inIntRange (index k)) ∧
      ((∀ k < n, (round k).1 = .ok .void) → out = (.ok .void, machine n)) ∧
      ∀ k < n, (∀ j < k, (round j).1 = .ok .void) → (round k).1 ≠ .ok .void → out = round k := by
  intro index machine round out
  obtain ⟨hstart', hstop'⟩ := hfits
  have hout : out = E.countingLoop var stop step body location c start m₃ :=
    Engine.forIndex_eq hstart hstop hdistance hstep
  rw [hout]
  refine ⟨roundsBetween start stop step, fun k => ?_, fun k hk => ?_, fun hvoid => ?_,
    fun k hk hvoid hfirst => ?_⟩
  · exact (lt_roundsBetween_iff hstep k).trans (countsOn_iff hstep _)
  · exact inIntRange_of_countsOn hstep hstart' hstop' ((lt_roundsBetween_iff hstep k).1 hk)
  · exact Engine.countingLoop_of_all hstep hstart' hstop' hvoid
  · exact Engine.countingLoop_of_first hstep hstart' hstop' hk hvoid hfirst

def integerLiteral (n : Int) : Expr :=
  .onLine 1 (.literal (.int n))

/-- The two greatest integers, up to `maxInt`, after which there is none that fits. -/
theorem forIndex_arithmetic_progression_greatest :
    let P : Program := { model := {} }
    let E := P.engine 2
    let var : Name := { module := "M", text := "i" }
    let c := Context.binding []
    let m := Machine.initial P {}
    let first := integerLiteral (Word.maxInt - 1)
    let last := integerLiteral Word.maxInt
    let m₁ := (E.int first c m).2
    let m₂ := (E.int last c m₁).2
    Value.inIntRange (Word.maxInt - 1) ∧ ¬Value.inIntRange (Word.maxInt + 1) ∧
      E.forIndex var first last none (.onLine 2 .skip) (.onLine 1) c m =
        (.ok .void,
          E.afterRounds var (.onLine 2 .skip) (.onLine 1) c (Word.maxInt - 1) 1 m₂ 2) := by
  intro P E var c m first last m₁ m₂
  have hstart : E.int first c m = (.ok (Word.maxInt - 1), m₁) :=
    eq_ok_of_toOption (by decide +kernel)
  have hstop : E.int last c m₁ = (.ok Word.maxInt, m₂) := eq_ok_of_toOption (by decide +kernel)
  obtain ⟨n, hn, -, hall, -⟩ := forIndex_arithmetic_progression E var first last none
    (.onLine 2 .skip) (.onLine 1) c hstart hstop rfl (by decide) (by decide)
  -- There are two rounds.
  have htwo : n = 2 := by
    have h₁ := hn 1
    have h₂ := hn 2
    simp only [Word.maxInt] at h₁ h₂
    norm_num at h₁ h₂
    omega
  subst htwo
  refine ⟨by decide, by decide, hall fun k hk => ?_⟩
  have hk' : k = 0 ∨ k = 1 := by omega
  rcases hk' with rfl | rfl <;> exact eq_ok_void_of_any (by decide +kernel)

end Animator

import Animator.Heap.Operator
import Animator.Proofs.Arithmetic.Rounding
import Mathlib.Data.Rat.Floor

/-!
# Division of integers

There are two quotients of integers and two remainders. `div` drops what is behind the point of the
quotient (`towardsZero`), and `rem` is what is then left of the dividend; it is on the side of the
dividend. `mod` is on the side of the divisor. The quotient `/` is an integer only if nothing is
left.

`integer_division_laws` says this of all pairs of 64-bit integers. One of them has a quotient that
does not fit.
-/

namespace Animator

/-- The integer next to a number on the side of zero. -/
def towardsZero (x : ℚ) : Int :=
  if 0 ≤ x then ⌊x⌋ else ⌈x⌉

/-- A remainder of a division: it is smaller than the divisor, and unless it is zero it has the sign
of a given integer. -/
def Reduced (r b side : Int) : Prop :=
  |r| < |b| ∧ (r = 0 ∨ r.sign = side.sign)

section Quotients

variable {a b : Int}

theorem reduced_tmod (a : Int) (hb : b ≠ 0) : Reduced (a.tmod b) b a := by
  refine ⟨?_, ?_⟩
  · rw [Int.abs_eq_natAbs, Int.abs_eq_natAbs, Int.natAbs_tmod]
    exact_mod_cast Nat.mod_lt _ (Int.natAbs_pos.2 hb)
  · by_cases hdvd : b ∣ a
    · exact .inl (Int.tmod_eq_zero_of_dvd hdvd)
    · exact .inr (by rw [Int.sign_tmod, if_neg hdvd])

namespace Reduced

variable {r side : Int}

theorem nonneg (hr : Reduced r b side) (h : 0 ≤ side) : 0 ≤ r := by
  rcases hr.2 with rfl | hsign
  · exact le_rfl
  · rwa [← Int.sign_nonneg_iff, hsign, Int.sign_nonneg_iff]

theorem nonpos (hr : Reduced r b side) (h : side ≤ 0) : r ≤ 0 := by
  rcases hr.2 with rfl | hsign
  · exact le_rfl
  · rwa [← Int.sign_nonpos_iff, hsign, Int.sign_nonpos_iff]

end Reduced

/-- Integer division rounds the quotient towards zero. -/
theorem towardsZero_div (a : Int) (hb : b ≠ 0) : towardsZero (a / b : ℚ) = a.tdiv b := by
  have hr := reduced_tmod a hb
  have hb' : (b : ℚ) ≠ 0 := by exact_mod_cast hb
  have hdivision : (b * a.tdiv b + a.tmod b : ℚ) = a := by exact_mod_cast Int.mul_tdiv_add_tmod a b
  have hsplit : (a / b : ℚ) = a.tdiv b + a.tmod b / b := by
    rw [div_eq_iff hb', add_mul, div_mul_cancel₀ _ hb', ← hdivision, mul_comm]
  have hsmall : |(a.tmod b / b : ℚ)| < 1 := by
    rw [abs_div, div_lt_one (abs_pos.2 hb')]
    exact_mod_cast hr.1
  rw [abs_lt] at hsmall
  -- What is behind the point is on the same side of zero as the quotient.
  unfold towardsZero
  split
  · next h =>
    have hrest : 0 ≤ (a.tmod b / b : ℚ) := by
      rcases div_nonneg_iff.1 h with ⟨ha, hb⟩ | ⟨ha, hb⟩
      · exact div_nonneg (by exact_mod_cast hr.nonneg (by exact_mod_cast ha)) hb
      · exact div_nonneg_of_nonpos (by exact_mod_cast hr.nonpos (by exact_mod_cast ha)) hb
    rw [Int.floor_eq_iff]
    constructor <;> linarith
  · next h =>
    have hrest : (a.tmod b / b : ℚ) ≤ 0 := by
      rcases div_nonpos_iff.1 (not_le.1 h).le with ⟨ha, hb⟩ | ⟨ha, hb⟩
      · exact div_nonpos_of_nonneg_of_nonpos (by exact_mod_cast hr.nonneg (by exact_mod_cast ha)) hb
      · exact div_nonpos_of_nonpos_of_nonneg (by exact_mod_cast hr.nonpos (by exact_mod_cast ha)) hb
    rw [Int.ceil_eq_iff]
    constructor <;> linarith

theorem reduced_modulo (a : Int) (hb : b ≠ 0) : Reduced (Heap.modulo a b) b b := by
  have hlt := (reduced_tmod a hb).1
  unfold Heap.modulo Reduced
  dsimp only
  generalize a.tmod b = r at hlt ⊢
  rcases lt_or_gt_of_ne hb with hneg | hpos
  · rw [abs_of_neg hneg, abs_lt] at hlt
    rw [abs_of_neg hneg, abs_lt, Int.sign_eq_neg_one_of_neg hneg, Int.sign_eq_neg_one_iff_neg]
    simp only [ne_eq, eq_iff_iff, hneg, iff_true]
    split <;> omega
  · rw [abs_of_pos hpos, abs_lt] at hlt
    rw [abs_of_pos hpos, abs_lt, Int.sign_eq_one_of_pos hpos, Int.sign_eq_one_iff_pos]
    simp only [ne_eq, eq_iff_iff, hpos.not_gt, iff_false]
    split <;> omega

theorem dvd_sub_modulo (a b : Int) : b ∣ a - Heap.modulo a b := by
  have hrem : b ∣ a - a.tmod b := ⟨a.tdiv b, by have := Int.mul_tdiv_add_tmod a b; omega⟩
  unfold Heap.modulo
  dsimp only
  split
  · rw [← sub_sub]
    exact hrem.sub dvd_rfl
  · exact hrem

/-! ### The range of integers -/

theorem Reduced.inIntRange {r side : Int} (hr : Reduced r b side) (hb : Value.inIntRange b) :
    Value.inIntRange r := by
  rw [Value.inIntRange_iff] at hb ⊢
  have hlt := hr.1
  rw [abs_lt] at hlt
  have hle : |b| ≤ 2 ^ 63 := abs_le.2 ⟨hb.1, by omega⟩
  omega

/-- There is one quotient that does not fit, by `inIntRange`. -/
theorem inIntRange_tdiv_iff (ha : Value.inIntRange a) (hb : b ≠ 0) :
    Value.inIntRange (a.tdiv b) = true ↔ ¬(a = Word.minInt ∧ b = -1) := by
  rw [Value.inIntRange_iff] at ha ⊢
  by_cases hone : b = 1
  · subst hone
    rw [Int.tdiv_one]
    exact iff_of_true ha fun h => absurd h.2 (by decide)
  · by_cases hminus : b = -1
    · subst hminus
      rw [Int.tdiv_neg, Int.tdiv_one, Word.minInt]
      omega
    · -- Any other divisor makes the quotient half as large as the dividend, or smaller.
      have hhalf : (a.tdiv b).natAbs ≤ a.natAbs / 2 := by
        rw [Int.natAbs_tdiv]
        exact Nat.div_le_div_left (by omega) (by decide)
      exact iff_of_true (by omega) fun h => hminus h.2

theorem Binary64.isZero_ofInt (hb : Value.inIntRange b) : (ofInt b).isZero = decide (b = 0) := by
  rw [Value.inIntRange_iff] at hb
  rw [isZero, magnitude_ofInt (by omega), decide_eq_decide]
  constructor
  · intro h
    by_contra hne
    rw [magnitudeOfNat_of_pos (by omega)] at h
    omega
  · rintro rfl
    rfl

end Quotients

/-! ### The operators -/

namespace Heap

variable (h : Heap) {a b : Int}

theorem divide_int (hb : Value.inIntRange b) : h.divide (.int a) (.int b) =
    if b = 0 then .error .divisionByZero
    else .ok (if b ∣ a ∧ Value.inIntRange (a.tdiv b) then .int (a.tdiv b)
      else .real (.ofInt a / .ofInt b)) := by
  by_cases hzero : b = 0
  · subst hzero
    rfl
  · have hdivisor : ¬(Binary64.ofInt b).isZero = true := by
      rwa [Binary64.isZero_ofInt hb, decide_eq_true_iff]
    have hsteps : h.divide (.int a) (.int b) =
        if a.tmod b = 0 ∧ Value.inIntRange (a.tdiv b) then .ok (.int (a.tdiv b))
        else .ok (.real (.ofInt a / .ofInt b)) :=
      if_neg hdivisor
    rw [if_neg hzero, hsteps]
    simp only [Int.dvd_iff_tmod_eq_zero]
    split <;> rfl

theorem binary_int_zero (a : Int) :
    ∀ op ∈ [BinaryOp.div, .intDiv, .rem, .mod], h.binary op (.int a) (.int 0) =
      .error .divisionByZero := by
  intro op hop
  simp only [List.mem_cons, List.not_mem_nil, or_false] at hop
  rcases hop with rfl | rfl | rfl | rfl <;> rfl

section Nonzero

variable (hb : b ≠ 0)

include hb

theorem divisionOperands_bind (f : Int × Int → Except ValueFault Value) :
    (h.divisionOperands (.int a) (.int b) >>= f) = f (a, b) := by
  have hoperands : h.divisionOperands (.int a) (.int b) = .ok (a, b) := if_neg hb
  rw [hoperands]
  rfl

theorem intDiv_int : h.binary .intDiv (.int a) (.int b) =
    .ok (intOr (a.tdiv b) (.ofInt (a.tdiv b))) :=
  h.divisionOperands_bind hb fun p => .ok (intOr (p.1.tdiv p.2) (.ofInt (p.1.tdiv p.2)))

theorem rem_int : h.binary .rem (.int a) (.int b) = .ok (.int (a.tmod b)) :=
  h.divisionOperands_bind hb fun p => .ok (.int (p.1.tmod p.2))

theorem mod_int : h.binary .mod (.int a) (.int b) = .ok (.int (modulo a b)) :=
  h.divisionOperands_bind hb fun p => .ok (.int (modulo p.1 p.2))

/-- The quotient that `divide` gives is an integer exactly if it is one and fits. -/
theorem divide_int_iff (hrange : Value.inIntRange b) (q : Int) :
    h.divide (.int a) (.int b) = .ok (.int q) ↔ a = b * q ∧ Value.inIntRange q := by
  rw [divide_int h hrange, if_neg hb, Except.ok.injEq]
  constructor
  · split
    · next hfits =>
      intro hq
      cases hq
      exact ⟨(Int.mul_tdiv_cancel' hfits.1).symm, hfits.2⟩
    · intro hq
      cases hq
  · rintro ⟨rfl, hq⟩
    have hquotient : (b * q).tdiv b = q := Int.mul_tdiv_cancel_left q hb
    rw [hquotient, if_pos ⟨Int.dvd_mul_right b q, hq⟩]

theorem divide_int_of_forall (hrange : Value.inIntRange b)
    (hnone : ∀ q, a = b * q → Value.inIntRange q = false) :
    h.divide (.int a) (.int b) = .ok (.real (.ofInt a / .ofInt b)) := by
  rw [divide_int h hrange, if_neg hb, if_neg]
  rintro ⟨hdvd, hfits⟩
  rw [hnone _ (Int.mul_tdiv_cancel' hdvd).symm] at hfits
  cases hfits

end Nonzero

end Heap

/-- The laws of the four divisions, for all 64-bit integers. Dividing by zero fails, with the same
fault in all of them. Otherwise `rem` is on the side of the dividend, `mod` on that of the divisor,
and both are smaller than the divisor. `rem` is what `div` leaves, and `div` goes towards zero, with
one exception: the quotient of the least integer and minus one is a real. The quotient `/` is an
integer exactly if the division is exact and the quotient fits. -/
theorem integer_division_laws (h : Heap) (a b : Int) (ha : Value.inIntRange a)
    (hb : Value.inIntRange b) :
    (b = 0 → ∀ op ∈ [BinaryOp.div, .intDiv, .rem, .mod],
      ∃ fault, h.binary op (.int a) (.int b) = .error fault ∧ fault.code = .divisionByZero) ∧
    (b ≠ 0 →
      (∃ r, h.binary .rem (.int a) (.int b) = .ok (.int r) ∧ Value.inIntRange r ∧ Reduced r b a ∧
        if a = Word.minInt ∧ b = -1 then
          r = 0 ∧ h.binary .intDiv (.int a) (.int b) = .ok (.real (.ofInt (2 ^ 63)))
        else ∃ q, h.binary .intDiv (.int a) (.int b) = .ok (.int q) ∧ Value.inIntRange q ∧
          a = b * q + r ∧ q = towardsZero (a / b)) ∧
      (∃ s, h.binary .mod (.int a) (.int b) = .ok (.int s) ∧ Value.inIntRange s ∧ Reduced s b b ∧
        b ∣ a - s) ∧
      (∀ q, h.binary .div (.int a) (.int b) = .ok (.int q) ↔ a = b * q ∧ Value.inIntRange q) ∧
      ((∀ q, a = b * q → Value.inIntRange q = false) →
        h.binary .div (.int a) (.int b) = .ok (.real (.ofInt a / .ofInt b)))) := by
  constructor
  · rintro rfl op hop
    exact ⟨_, h.binary_int_zero a op hop, rfl⟩
  · intro hne
    have hrem := reduced_tmod a hne
    have hmod := reduced_modulo a hne
    refine ⟨⟨a.tmod b, h.rem_int hne, hrem.inIntRange hb, hrem, ?_⟩,
      ⟨Heap.modulo a b, h.mod_int hne, hmod.inIntRange hb, hmod, dvd_sub_modulo a b⟩,
      h.divide_int_iff hne hb, h.divide_int_of_forall hne hb⟩
    rw [h.intDiv_int hne, Heap.intOr]
    split
    · next hleast =>
      obtain ⟨rfl, rfl⟩ := hleast
      exact ⟨rfl, rfl⟩
    · next hfits =>
      rw [← inIntRange_tdiv_iff ha hne] at hfits
      exact ⟨a.tdiv b, by rw [if_pos hfits], hfits, (Int.mul_tdiv_add_tmod a b).symm,
        (towardsZero_div a hne).symm⟩

/-- The least integer, `minInt`, is exactly divisible by minus one, and the quotient does not fit.
-/
theorem integer_division_laws_least :
    Value.inIntRange Word.minInt = true ∧ Value.inIntRange (-1) = true ∧
      (∃ r, Heap.binary {} .rem (.int Word.minInt) (.int (-1)) = .ok (.int r) ∧ r = 0 ∧
        Heap.binary {} .intDiv (.int Word.minInt) (.int (-1)) = .ok (.real (.ofInt (2 ^ 63)))) := by
  obtain ⟨-, hne⟩ := integer_division_laws {} Word.minInt (-1) (by decide) (by decide)
  obtain ⟨⟨r, hr, -, -, hleast⟩, -⟩ := hne (by decide)
  rw [if_pos ⟨rfl, rfl⟩] at hleast
  exact ⟨by decide, by decide, r, hr, hleast⟩

end Animator

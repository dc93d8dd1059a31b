import Animator.Heap.Extract
import Animator.Proofs.Order.Number

/-!
# Integral doubles

The double nearest to the integer part of an integral double is that double again
(`Binary64.magnitudeOfNat_truncated`), up to the sign of zero. The integer that an integral double
stands for is kept within 64 bits, so that it still has the double as its nearest one if and only if
the double is not beyond `2 ^ 63` and is not negative zero (`Heap.ofInt_eq_iff`).
-/

namespace Animator

namespace Binary64

variable {x y : Binary64}

theorem magnitude_eq (x : Binary64) : x.magnitude = x.exponent * 2 ^ 52 + x.fraction := by
  unfold magnitude exponent fraction
  omega

theorem fraction_lt (x : Binary64) : x.fraction < 2 ^ 52 :=
  Nat.mod_lt _ (by decide)

theorem truncated_congr (h : x.magnitude = y.magnitude) : x.truncated = y.truncated := by
  have hx := x.fraction_lt
  have hy := y.fraction_lt
  rw [magnitude_eq, magnitude_eq] at h
  have hexponent : x.exponent = y.exponent := by omega
  have hfraction : x.fraction = y.fraction := by omega
  unfold truncated scale significand
  rw [hexponent, hfraction]

theorem eq_of_sign_magnitude (hsign : x.negative = y.negative) (h : x.magnitude = y.magnitude) :
    x = y := by
  apply key_injective
  rw [key, key, hsign, h]

theorem log2_eq {m n : Nat} (hlow : 2 ^ n ≤ m) (hhigh : m < 2 ^ (n + 1)) : m.log2 = n := by
  have hm : m ≠ 0 := by
    have := Nat.two_pow_pos n
    omega
  exact (Nat.log2_eq_iff hm).2 ⟨hlow, hhigh⟩

theorem shiftRound_mul {m s : Nat} : shiftRound (m * 2 ^ s) s = m := by
  have hpow : Nat.pow 2 s = 2 ^ s := rfl
  unfold shiftRound
  dsimp only
  rw [hpow, Nat.mul_mod_left, Nat.mul_div_cancel _ (Nat.two_pow_pos s), if_neg]
  rintro (hlt | ⟨hhalf, hpos, -⟩)
  · exact Nat.not_lt_zero _ hlt
  · have := Nat.pow_le_pow_right (n := 2) (by decide) hpos
    omega

theorem magnitudeOfNat_mul {s n : Nat} (hlow : 2 ^ 52 ≤ s) (hhigh : s < 2 ^ 53) :
    magnitudeOfNat (s * 2 ^ n) = (1075 + n) * 2 ^ 52 + (s - 2 ^ 52) := by
  have hlog : (s * 2 ^ n).log2 = 52 + n := by
    apply log2_eq
    · rw [Nat.pow_add]
      exact Nat.mul_le_mul_right _ hlow
    · rw [Nat.add_right_comm, Nat.pow_add]
      exact Nat.mul_lt_mul_of_pos_right hhigh (Nat.two_pow_pos n)
  have hpos : s * 2 ^ n ≠ 0 := by
    have := Nat.mul_pos (show 0 < s by omega) (Nat.two_pow_pos n)
    omega
  have htop : topOf (s * 2 ^ n) (52 + n) = s := by
    unfold topOf
    split
    · obtain rfl : n = 0 := by omega
      simp
    · rw [Nat.add_sub_cancel_left, shiftRound_mul]
  rw [magnitudeOfNat_of_pos hpos, hlog, htop]
  omega

theorem magnitudeOfNat_of_mul {k d : Nat} (hlow : 2 ^ 52 ≤ k * 2 ^ d) (hhigh : k * 2 ^ d < 2 ^ 53) :
    magnitudeOfNat k = (1075 - d) * 2 ^ 52 + (k * 2 ^ d - 2 ^ 52) := by
  have hk : k ≠ 0 := by
    rintro rfl
    simp at hlow
  have hd : d ≤ 52 := by
    have hle : 2 ^ d < 2 ^ 53 :=
      (Nat.le_mul_of_pos_left _ (Nat.pos_of_ne_zero hk)).trans_lt hhigh
    have := (Nat.pow_lt_pow_iff_right (by decide)).1 hle
    omega
  have hsplit : 2 ^ 52 = 2 ^ (52 - d) * 2 ^ d := by rw [← Nat.pow_add, Nat.sub_add_cancel hd]
  have hlog : k.log2 = 52 - d := by
    apply log2_eq
    · rw [hsplit] at hlow
      exact Nat.le_of_mul_le_mul_right hlow (Nat.two_pow_pos d)
    · apply Nat.lt_of_mul_lt_mul_right (a := 2 ^ d)
      rwa [Nat.pow_succ, Nat.mul_right_comm, ← hsplit, ← Nat.pow_succ]
  have htop : topOf k (52 - d) = k * 2 ^ d := by
    rw [topOf, if_pos (Nat.sub_le _ _), Nat.sub_sub_self hd]
  rw [magnitudeOfNat_of_pos hk, hlog, htop]
  omega

/-- The double nearest (`magnitudeOfNat`) to the integer part of an integral double is that double,
but for the sign. -/
theorem magnitudeOfNat_truncated (h : x.isIntegral = true) :
    magnitudeOfNat x.truncated.1 = x.magnitude := by
  have hfraction := x.fraction_lt
  rw [isIntegral, Bool.and_eq_true] at h
  obtain ⟨-, hwhole⟩ := h
  rw [magnitude_eq]
  by_cases hzero : x.exponent = 0
  · -- Only zero is integral among the subnormal numbers.
    have hscale : x.scale = 0 := by rw [scale, hzero]
    have hsmall : x.fraction < 2 ^ (1074 - x.scale) :=
      hfraction.trans (Nat.pow_lt_pow_right (by decide) (by omega))
    have hsignificand : x.significand = x.fraction := if_pos hzero
    rw [truncated, if_neg (by omega), hsignificand] at hwhole ⊢
    have hnone : x.fraction = 0 := (Nat.mod_eq_of_lt hsmall).symm.trans (of_decide_eq_true hwhole)
    rw [hnone, hzero]
    dsimp only
    rw [Nat.zero_div]
    rfl
  · have hsignificand : x.significand = 2 ^ 52 + x.fraction := if_neg hzero
    by_cases hscale : 1074 ≤ x.scale
    · have htrunc : x.truncated.1 = x.significand * 2 ^ (x.scale - 1074) := by
        rw [truncated, if_pos hscale]
        rfl
      rw [htrunc, magnitudeOfNat_mul (by omega) (by omega), hsignificand]
      unfold scale at hscale ⊢
      omega
    · rw [truncated, if_neg hscale] at hwhole ⊢
      have hdvd : x.significand / 2 ^ (1074 - x.scale) * 2 ^ (1074 - x.scale) = x.significand :=
        Nat.div_mul_cancel (Nat.dvd_of_mod_eq_zero (of_decide_eq_true hwhole))
      have hmag := magnitudeOfNat_of_mul (by rw [hdvd]; omega) (by rw [hdvd]; omega)
      rw [hdvd] at hmag
      refine hmag.trans ?_
      rw [hsignificand]
      unfold scale at hscale ⊢
      omega

def negativeZero : Binary64 := ⟨0x8000000000000000⟩

section OfInt

variable {n : Int} (hn : n.natAbs ≤ 2 ^ 63)

include hn

theorem negative_ofInt : (ofInt n).negative = decide (n < 0) := by
  have hlt := magnitudeOfNat_lt hn
  rw [negative, ofInt, toNat_ofSignMagnitude hlt]
  by_cases hneg : n < 0
  · simp [hneg]
  · simp only [hneg, decide_false, Bool.false_eq_true, if_false, decide_eq_false_iff_not]
    omega

theorem magnitude_ofInt : (ofInt n).magnitude = magnitudeOfNat n.natAbs := by
  have hlt := magnitudeOfNat_lt hn
  rw [magnitude, ofInt, toNat_ofSignMagnitude hlt]
  split <;> omega

end OfInt

/-- What is `truncated` of the double that is the first one out of the range of integers. -/
theorem truncated_of_magnitude (h : x.magnitude = magnitudeOfNat (2 ^ 63)) :
    x.truncated.1 = 2 ^ 63 := by
  have hofInt : (ofInt (2 ^ 63)).magnitude = magnitudeOfNat (2 ^ 63) := magnitude_ofInt (by decide)
  rw [truncated_congr (h.trans hofInt.symm)]
  decide

theorem magnitudeOfNat_maxInt : magnitudeOfNat (2 ^ 63 - 1) = magnitudeOfNat (2 ^ 63) := by
  decide

end Binary64

namespace Heap

open Binary64

variable {x : Binary64} {n : Int}

/-- The integer that an integral double stands for (`isIntegral`) is its integer part, kept within
the range of integers. -/
theorem integerOfReal?_eq_some (hn : integerOfReal? x = some n) :
    x.isIntegral = true ∧
      n = max Word.minInt (min Word.maxInt
        (if x.negative then -(x.truncated.1 : Int) else x.truncated.1)) := by
  unfold integerOfReal? at hn
  split at hn
  · next hx =>
    have hfinite : x.isFinite = true := (Bool.and_eq_true _ _ ▸ hx).1
    rw [truncate?, if_pos hfinite, clampInto] at hn
    exact ⟨hx, (Option.some.inj hn).symm⟩
  · cases hn

/-- The integer that an integral double stands for has it as the nearest double (`ofInt`) exactly if
the double is in the range of integers, the upper end included, and has no sign to lose. -/
theorem ofInt_eq_iff (hn : integerOfReal? x = some n) :
    ofInt n = x ↔ x.truncated.1 ≤ 2 ^ 63 ∧ x ≠ negativeZero := by
  obtain ⟨hx, hclamp⟩ := integerOfReal?_eq_some hn
  have hmagnitude := magnitudeOfNat_truncated hx
  simp only [Word.minInt, Word.maxInt] at hclamp
  have hrange : n.natAbs ≤ 2 ^ 63 := by omega
  constructor
  · rintro heq
    refine ⟨Nat.le_of_not_lt fun hlt => ?_, ?_⟩
    · -- A bound of the range has the double `2 ^ 63` as the nearest one, which is not beyond it.
      have hbound : n.natAbs = 2 ^ 63 - 1 ∨ n.natAbs = 2 ^ 63 := by
        split at hclamp <;> omega
      have hmag : x.magnitude = magnitudeOfNat (2 ^ 63) := by
        rw [← heq, magnitude_ofInt hrange]
        rcases hbound with h | h <;> rw [h]
        exact magnitudeOfNat_maxInt
      have := truncated_of_magnitude hmag
      omega
    · rintro rfl
      have hzero : n = 0 := by rw [hclamp]; decide +kernel
      rw [hzero] at heq
      revert heq
      decide
  · rintro ⟨hle, hne⟩
    apply eq_of_sign_magnitude
    · rw [negative_ofInt hrange]
      cases hsign : x.negative with
      | true =>
        have hpos : x.truncated.1 ≠ 0 := by
          intro hzero
          rw [hzero] at hmagnitude
          exact hne (eq_of_sign_magnitude hsign hmagnitude.symm)
        rw [hsign, if_pos rfl] at hclamp
        exact decide_eq_true (by omega)
      | false =>
        rw [hsign, if_neg Bool.false_ne_true] at hclamp
        exact decide_eq_false (by omega)
    · rw [magnitude_ofInt hrange, ← hmagnitude]
      by_cases htop : n.natAbs = x.truncated.1
      · rw [htop]
      · have htop' : n.natAbs = 2 ^ 63 - 1 ∧ x.truncated.1 = 2 ^ 63 := by
          split at hclamp <;> omega
        rw [htop'.1, htop'.2, magnitudeOfNat_maxInt]

end Heap

end Animator

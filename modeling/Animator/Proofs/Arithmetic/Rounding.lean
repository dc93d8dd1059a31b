import Animator.Proofs.Conversion.Integral

/-!
# The integer that stands for an integer

An integer that is turned into a double and back is rounded to 53 significant bits
(`Binary64.floor?_ofInt`, `Binary64.nearestNat`). It comes back as it was exactly if it has no more
of them (`Binary64.nearestNat_eq_self_iff`).
-/

namespace Animator

theorem Value.inIntRange_iff {n : Int} : inIntRange n = true ↔ -2 ^ 63 ≤ n ∧ n ≤ 2 ^ 63 - 1 :=
  decide_eq_true_iff

namespace Binary64

/-- The natural that the double nearest to a natural stands for: 53 bits of it are left. -/
def nearestNat (m : Nat) : Nat :=
  if m.log2 ≤ 52 then m else shiftRound m (m.log2 - 52) * 2 ^ (m.log2 - 52)

/-- The natural number has at most 53 significant bits. -/
def Representable (m : Nat) : Prop :=
  ∃ s e : Nat, s < 2 ^ 53 ∧ m = s * 2 ^ e

variable {m s : Nat} {x : Binary64}

/-! ### Rounding -/

/-- Nothing is rounded by `shiftRound` exactly if there is nothing behind the point. -/
theorem shiftRound_eq_iff : shiftRound m s * 2 ^ s = m ↔ 2 ^ s ∣ m := by
  constructor
  · intro h
    exact ⟨shiftRound m s, by rw [Nat.mul_comm, h]⟩
  · rintro ⟨k, rfl⟩
    rw [Nat.mul_comm _ k, shiftRound_mul]

theorem nearestNat_eq_self_iff : nearestNat m = m ↔ Representable m := by
  have hhigh : m < 2 ^ (m.log2 + 1) := Nat.lt_log2_self
  unfold nearestNat
  split
  · next hlog =>
    have hsmall : m < 2 ^ 53 := hhigh.trans_le (Nat.pow_le_pow_right (by decide) (by omega))
    exact iff_of_true rfl ⟨m, 0, hsmall, by simp⟩
  · next hlog =>
    rw [shiftRound_eq_iff]
    constructor
    · rintro ⟨k, hk⟩
      refine ⟨k, m.log2 - 52, ?_, by rw [Nat.mul_comm]; exact hk⟩
      apply Nat.lt_of_mul_lt_mul_left (a := 2 ^ (m.log2 - 52))
      rw [← hk, ← Nat.pow_add]
      exact hhigh.trans_le (Nat.pow_le_pow_right (by decide) (by omega))
    · rintro ⟨k, e, hk, he⟩
      have hm : m ≠ 0 := by
        rintro rfl
        exact hlog (by decide)
      have hlt : 2 ^ m.log2 < 2 ^ (53 + e) := by
        refine (Nat.log2_self_le hm).trans_lt ?_
        rw [Nat.pow_add, he]
        exact Nat.mul_lt_mul_of_pos_right hk (Nat.two_pow_pos e)
      have hle := (Nat.pow_lt_pow_iff_right (by decide)).1 hlt
      rw [he]
      exact Nat.dvd_mul_left_of_dvd (Nat.pow_dvd_pow 2 (by rw [← he]; omega)) k

/-! ### Doubles -/

theorem le_topOf (hm : m ≠ 0) : 2 ^ 52 ≤ topOf m m.log2 := by
  have hlow := Nat.log2_self_le hm
  unfold topOf
  split
  · next hlog =>
    calc 2 ^ 52 = 2 ^ m.log2 * 2 ^ (52 - m.log2) := by rw [← Nat.pow_add, Nat.add_sub_cancel' hlog]
      _ ≤ m * 2 ^ (52 - m.log2) := Nat.mul_le_mul_right _ hlow
  · next hlog =>
    refine le_trans ?_ (le_shiftRound m _)
    rw [Nat.le_div_iff_mul_le (Nat.two_pow_pos _), ← Nat.pow_add, Nat.add_sub_cancel' (by omega)]
    exact hlow

/-- The integer part (`truncated`) of a number that is not below one, from its first 53 bits and the
place of the first one. -/
theorem truncated_of_bits {top log : Nat} (hlow : 2 ^ 52 ≤ top) (hhigh : top < 2 ^ 53)
    (hx : x.magnitude = (log + 1023) * 2 ^ 52 + (top - 2 ^ 52)) :
    x.truncated = if 52 ≤ log then (top * 2 ^ (log - 52), true)
      else (top / 2 ^ (52 - log), decide (top % 2 ^ (52 - log) = 0)) := by
  have hfraction := x.fraction_lt
  rw [magnitude_eq] at hx
  have hexponent : x.exponent = log + 1023 := by omega
  have hsignificand : x.significand = top := by
    rw [significand, if_neg (by omega)]
    omega
  have hscale : x.scale = log + 1022 := by rw [scale, hexponent]; rfl
  have hpow : ∀ n, Nat.pow 2 n = 2 ^ n := fun n => rfl
  simp only [truncated, hsignificand, hscale, hpow]
  by_cases hlog : 52 ≤ log
  · rw [if_pos (by omega), if_pos hlog, show log + 1022 - 1074 = log - 52 by omega]
  · rw [if_neg (by omega), if_neg hlog, show 1074 - (log + 1022) = 52 - log by omega]

theorem topOf_of_le (hlog : m.log2 ≤ 52) : topOf m m.log2 = m * 2 ^ (52 - m.log2) :=
  if_pos hlog

theorem nearestNat_of_lt (hlog : 52 < m.log2) :
    nearestNat m = topOf m m.log2 * 2 ^ (m.log2 - 52) := by
  rw [nearestNat, topOf, if_neg (by omega), if_neg (by omega)]

/-- Only rounding can carry into the next power of two. -/
theorem lt_log2_of_topOf_eq (htop : topOf m m.log2 = 2 ^ 53) : 52 < m.log2 := by
  by_contra hlog
  have hhigh : m < 2 ^ (m.log2 + 1) := Nat.lt_log2_self
  rw [topOf_of_le (by omega)] at htop
  have hlt : m * 2 ^ (52 - m.log2) < 2 ^ (m.log2 + 1) * 2 ^ (52 - m.log2) :=
    Nat.mul_lt_mul_of_pos_right hhigh (Nat.two_pow_pos _)
  rw [htop, ← Nat.pow_add, show m.log2 + 1 + (52 - m.log2) = 53 by omega] at hlt
  exact lt_irrefl _ hlt

/-- The double nearest to a natural (`nearestNat`) stands for the natural with 53 of its bits. -/
theorem truncated_of_magnitudeOfNat (hx : x.magnitude = magnitudeOfNat m) :
    x.truncated = (nearestNat m, true) := by
  by_cases hm : m = 0
  · subst hm
    have hzero : x.magnitude = (ofInt 0).magnitude := hx
    rw [truncated_congr hzero]
    decide +kernel
  · have hlow := le_topOf hm
    rw [magnitudeOfNat_of_pos hm] at hx
    rcases (topOf_le m).lt_or_eq with hlt | heq
    · rw [truncated_of_bits hlow hlt hx]
      rcases lt_trichotomy 52 m.log2 with hlog | hlog | hlog
      · rw [if_pos hlog.le, nearestNat_of_lt hlog]
      · rw [if_pos hlog.le, topOf_of_le hlog.ge, nearestNat, if_pos hlog.ge, ← hlog]
        simp
      · rw [if_neg (by omega), topOf_of_le hlog.le, nearestNat, if_pos hlog.le,
          Nat.mul_div_cancel _ (Nat.two_pow_pos _), Nat.mul_mod_left, decide_eq_true rfl]
    · have hlog := lt_log2_of_topOf_eq heq
      have hcarry : x.magnitude = (m.log2 + 1 + 1023) * 2 ^ 52 + (2 ^ 52 - 2 ^ 52) := by
        rw [hx, heq]
        omega
      rw [truncated_of_bits le_rfl (by decide) hcarry, if_pos (by omega), nearestNat_of_lt hlog,
        heq,
        show m.log2 + 1 - 52 = 1 + (m.log2 - 52) by omega, Nat.pow_add, ← Nat.mul_assoc,
        show 2 ^ 52 * 2 ^ 1 = 2 ^ 53 from rfl]

theorem nearestNat_le (hm : m ≤ 2 ^ 63) : nearestNat m ≤ 2 ^ 63 := by
  rcases hm.lt_or_eq with hlt | rfl
  · by_cases hlog : 52 < m.log2
    · have hlog' : m.log2 < 63 := (Nat.log2_lt (by rintro rfl; exact absurd hlog (by decide))).2 hlt
      calc nearestNat m = topOf m m.log2 * 2 ^ (m.log2 - 52) := nearestNat_of_lt hlog
        _ ≤ 2 ^ 53 * 2 ^ (m.log2 - 52) := Nat.mul_le_mul_right _ (topOf_le m)
        _ = 2 ^ (53 + (m.log2 - 52)) := (Nat.pow_add _ _ _).symm
        _ ≤ 2 ^ 63 := Nat.pow_le_pow_right (by decide) (by omega)
    · rw [nearestNat, if_pos (by omega)]
      exact hm
  · decide

/-! ### Integers -/

/-- The integer that the double nearest to an integer stands for. -/
def nearestInt (n : Int) : Int :=
  if n < 0 then -(nearestNat n.natAbs : Int) else nearestNat n.natAbs

section NearestInt

variable {n : Int}

theorem nearestInt_eq_self_iff : nearestInt n = n ↔ Representable n.natAbs := by
  rw [← nearestNat_eq_self_iff, nearestInt]
  split <;> omega

variable (hn : n.natAbs ≤ 2 ^ 63)

include hn

theorem isFinite_ofInt : (ofInt n).isFinite = true := by
  have hle : (ofInt n).magnitude ≤ magnitudeOfNat (2 ^ 63) := by
    rw [magnitude_ofInt hn]
    exact magnitudeOfNat_mono hn
  have hlargest : magnitudeOfNat (2 ^ 63) = 1086 * 2 ^ 52 := by decide
  rw [magnitude_eq, hlargest] at hle
  exact decide_eq_true (by omega)

theorem floor?_ofInt : (ofInt n).floor? = some (nearestInt n) := by
  rw [floor?, if_pos (isFinite_ofInt hn), truncated_of_magnitudeOfNat (magnitude_ofInt hn),
    negative_ofInt hn, nearestInt]
  simp

end NearestInt

end Binary64

end Animator

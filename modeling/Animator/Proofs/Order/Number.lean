import Animator.Value.Basic
import Mathlib.Algebra.Order.Ring.Nat
import Mathlib.Tactic.Linarith

/-!
# The nearest double is monotone

The places of doubles in their total order tell them apart (`Binary64.key_injective`), and the
double nearest to an integer of 64 bits grows with the integer (`Binary64.key_ofInt_mono`). It does
not grow strictly: beyond `2 ^ 53` neighbouring integers share a double.
-/

namespace Animator

namespace Binary64

theorem key_injective {x y : Binary64} (h : x.key = y.key) : x = y := by
  obtain ⟨x⟩ := x
  obtain ⟨y⟩ := y
  have hx := x.toNat_lt
  have hy := y.toNat_lt
  simp only [key, negative, magnitude, decide_eq_true_eq] at h
  congr 1
  apply UInt64.toNat_inj.1
  split at h <;> split at h <;> omega

/-! ### Rounding -/

variable {m m' s : Nat}

theorem le_shiftRound (m s : Nat) : m / 2 ^ s ≤ shiftRound m s := by
  unfold shiftRound
  dsimp only
  split
  · exact Nat.le_succ _
  · exact le_rfl

theorem shiftRound_le (m s : Nat) : shiftRound m s ≤ m / 2 ^ s + 1 := by
  unfold shiftRound
  dsimp only
  split
  · exact le_rfl
  · exact Nat.le_succ _

theorem shiftRound_mono (h : m ≤ m') : shiftRound m s ≤ shiftRound m' s := by
  have hquot : m / 2 ^ s ≤ m' / 2 ^ s := Nat.div_le_div_right h
  rcases hquot.lt_or_eq with hlt | heq
  · calc shiftRound m s ≤ m / 2 ^ s + 1 := shiftRound_le m s
      _ ≤ m' / 2 ^ s := hlt
      _ ≤ shiftRound m' s := le_shiftRound m' s
  · -- With equal quotients the rests are in order, and so are the decisions to round up.
    have hrest : m % 2 ^ s ≤ m' % 2 ^ s := by
      have hm := Nat.div_add_mod m (2 ^ s)
      have hm' := Nat.div_add_mod m' (2 ^ s)
      rw [heq] at hm
      omega
    have hround : ∀ n, Nat.pow 2 n = 2 ^ n := fun n => rfl
    simp only [shiftRound, hround, heq]
    split <;> split <;> omega

/-- The significand with its leading bit, for a natural with `log` as its binary logarithm. -/
def topOf (m log : Nat) : Nat :=
  if log ≤ 52 then m * 2 ^ (52 - log) else shiftRound m (log - 52)

theorem magnitudeOfNat_of_pos (hm : m ≠ 0) :
    magnitudeOfNat m = (m.log2 + 1023) * 2 ^ 52 + (topOf m m.log2 - 2 ^ 52) := by
  unfold magnitudeOfNat
  rw [if_neg hm]
  rfl

theorem topOf_mono (log : Nat) (h : m ≤ m') : topOf m log ≤ topOf m' log := by
  unfold topOf
  split
  · exact Nat.mul_le_mul_right _ h
  · exact shiftRound_mono h

/-- Rounding up by `topOf` can carry into the next power of two, and no further. -/
theorem topOf_le (m : Nat) : topOf m m.log2 ≤ 2 ^ 53 := by
  have hlog : m < 2 ^ (m.log2 + 1) := Nat.lt_log2_self
  unfold topOf
  split
  · next hsmall =>
    calc m * 2 ^ (52 - m.log2) ≤ 2 ^ (m.log2 + 1) * 2 ^ (52 - m.log2) :=
          Nat.mul_le_mul_right _ hlog.le
      _ = 2 ^ 53 := by rw [← Nat.pow_add]; congr 1; omega
  · next hlarge =>
    have hquot : m / 2 ^ (m.log2 - 52) < 2 ^ 53 := by
      apply (Nat.div_lt_iff_lt_mul (Nat.two_pow_pos _)).2
      rw [← Nat.pow_add]
      have hexp : 53 + (m.log2 - 52) = m.log2 + 1 := by omega
      rwa [hexp]
    exact (shiftRound_le _ _).trans hquot

theorem magnitudeOfNat_mono (h : m ≤ m') : magnitudeOfNat m ≤ magnitudeOfNat m' := by
  by_cases hm : m = 0
  · subst hm
    exact Nat.zero_le _
  · have hm' : m' ≠ 0 := by omega
    rw [magnitudeOfNat_of_pos hm, magnitudeOfNat_of_pos hm']
    have hlog : m.log2 ≤ m'.log2 := (Nat.le_log2 hm').2 ((Nat.log2_self_le hm).trans h)
    rcases hlog.lt_or_eq with hlt | heq
    · have htop := topOf_le m
      omega
    · rw [← heq]
      have htop := topOf_mono m.log2 h
      omega

theorem magnitudeOfNat_lt (h : m ≤ 2 ^ 63) : magnitudeOfNat m < 2 ^ 63 := by
  calc magnitudeOfNat m ≤ magnitudeOfNat (2 ^ 63) := magnitudeOfNat_mono h
    _ < 2 ^ 63 := by decide

/-! ### Integers -/

theorem toNat_ofSignMagnitude {sign : Bool} {n : Nat} (hn : n < 2 ^ 63) :
    (ofSignMagnitude sign n).bits.toNat = (if sign then 2 ^ 63 else 0) + n := by
  have hmod : n % 0x8000000000000000 = n := Nat.mod_eq_of_lt hn
  have hfits : (if sign then 0x8000000000000000 else 0) + n < 2 ^ 64 := by split <;> omega
  rw [ofSignMagnitude, hmod, UInt64.toNat_ofNat', Nat.mod_eq_of_lt hfits]
  rfl

theorem key_ofSignMagnitude {sign : Bool} {n : Nat} (hn : n < 2 ^ 63) :
    (ofSignMagnitude sign n).key = if sign then -1 - (n : Int) else n := by
  simp only [key, negative, magnitude, toNat_ofSignMagnitude hn, decide_eq_true_eq]
  cases sign <;> simp only [Bool.false_eq_true, if_true, if_false] <;> split <;> omega

theorem key_ofInt {n : Int} (hn : Value.inIntRange n) :
    (ofInt n).key =
      if n < 0 then -1 - (magnitudeOfNat n.natAbs : Int) else magnitudeOfNat n.natAbs := by
  have habs : n.natAbs ≤ 2 ^ 63 := by
    have := of_decide_eq_true hn
    simp only [Word.minInt, Word.maxInt] at this
    omega
  rw [ofInt, key_ofSignMagnitude (magnitudeOfNat_lt habs)]
  simp only [decide_eq_true_eq]

theorem key_ofInt_mono {i j : Int} (hi : Value.inIntRange i) (hj : Value.inIntRange j)
    (h : i ≤ j) : (ofInt i).key ≤ (ofInt j).key := by
  rw [key_ofInt hi, key_ofInt hj]
  by_cases hneg : j < 0
  · have hmag : magnitudeOfNat j.natAbs ≤ magnitudeOfNat i.natAbs := magnitudeOfNat_mono (by omega)
    rw [if_pos (by omega), if_pos hneg]
    omega
  · by_cases hineg : i < 0
    · rw [if_pos hineg, if_neg hneg]
      omega
    · have hmag : magnitudeOfNat i.natAbs ≤ magnitudeOfNat j.natAbs :=
        magnitudeOfNat_mono (by omega)
      rw [if_neg hineg, if_neg hneg]
      omega

end Binary64

end Animator

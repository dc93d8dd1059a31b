import Animator.Binary64.Basic
import Animator.Word

/-!
# Decimals computed in doubles

A decimal can be turned into a double by computing with doubles: its leading digits make a natural
of 64 bits, which is rounded to a double and then multiplied or divided by a power of ten. Every
step rounds, so the result may miss the nearest double by a few places; it does not for decimals of
up to fifteen digits whose power of ten is at most the twenty-second.
-/

namespace Animator

namespace Binary64

/-- Append decimal digits to a natural up to the first one that would not fit in 64 bits, and
`count` those appended. -/
def appendDigits (n : Nat) : List Nat → Nat × Nat
  | [] => (n, 0)
  | d :: rest =>
    if n * 10 + d < Word.size64 then
      let (m, count) := appendDigits (n * 10 + d) rest
      (m, count + 1)
    else (n, 0)

/-- The double nearest to a power of ten, up to the 308th. -/
def powerOfTen (n : Nat) : Binary64 :=
  ofInt (Nat.pow 10 n : Nat)

/-- A natural of 64 bits times a power of ten, or `none` when that overflows. A power below the
smallest double takes two divisions, and one further below leaves nothing. -/
def scaled? (n : Nat) (e : Int) : Option Binary64 :=
  let x := ofInt n
  if n = 0 ∨ e < -616 then some (ofInt 0)
  else if e < -308 then some (x / powerOfTen 308 / powerOfTen (-e - 308).toNat)
  else if e < 0 then some (x / powerOfTen (-e).toNat)
  else if e ≤ 308 then
    let y := x * powerOfTen e.toNat
    if y.isFinite then some y else none
  else none

/-- The decimal with some digits before the point and some after it, times a power of ten. Digits
that do not fit in 64 bits are dropped; those before the point still count as places. -/
def stepwise? (negative : Bool) (whole part : List Nat) (exponent : Int) : Option Binary64 :=
  let (n, used) := appendDigits 0 whole
  let (m, places) := appendDigits n part
  (scaled? m (exponent + ((whole.length - used : Nat) : Int) - (places : Int))).map fun x =>
    ofSignMagnitude negative x.magnitude

end Binary64

end Animator

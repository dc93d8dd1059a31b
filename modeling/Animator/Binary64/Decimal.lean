import Animator.Binary64.Basic

/-!
# Decimal text of binary64 numbers

A finite double is `m * 2 ^ q`, and the reals that round to it form an interval around it whose
ends belong to it exactly when `m` is even. `Binary64.shortest` walks the decimal grids with one,
two, … seventeen digits and takes the first grid with a point in that interval, and of two such
points the one nearer to the number. If both are equally near, a `Tie` decides. All comparisons are
between naturals.
-/

namespace Animator

namespace Binary64

/-- Which of two equally near decimals is taken. -/
inductive Tie where
  | up
  /-- The one with the even last digit. -/
  | even
  deriving DecidableEq, Repr

/-- A positive decimal `digits * 10 ^ exponent`. -/
structure Decimal where
  digits : Nat
  /-- The power of ten of the last digit. -/
  exponent : Int
  deriving DecidableEq, Repr

/-- `n * 10 ^ e` as a fraction of naturals. -/
def tenPower (n : Nat) (e : Int) : Nat × Nat :=
  if 0 ≤ e then (n * Nat.pow 10 e.toNat, 1) else (n, Nat.pow 10 (-e).toNat)

/-- The magnitude of a finite number as a fraction with numerator a multiple of four, together
with the numerators of the ends of its rounding `Interval` over the same denominator. -/
structure Interval where
  low : Nat
  mid : Nat
  high : Nat
  den : Nat
  closed : Bool

/-- The rounding `interval` of a finite number. The gap below a power of two is half the gap above.
-/
def interval (x : Binary64) : Interval :=
  let m := 4 * x.significand
  let below := if x.fraction = 0 ∧ 1 < x.exponent then 1 else 2
  let up := Nat.pow 2 (x.scale - 1074)
  { low := (m - below) * up
    mid := m * up
    high := (m + 2) * up
    den := 4 * Nat.pow 2 (1074 - x.scale)
    closed := x.significand % 2 = 0 }

namespace Interval

/-- Whether `n * 10 ^ e` rounds to the number of the interval. -/
def holds (i : Interval) (n : Nat) (e : Int) : Bool :=
  let (num, den) := tenPower n e
  let point := num * i.den
  if i.closed then decide (i.low * den ≤ point ∧ point ≤ i.high * den)
  else decide (i.low * den < point ∧ point < i.high * den)

/-- The distance of `n * 10 ^ e` from the number, over the denominator `i.den * (tenPower n e).2`.
-/
def distance (i : Interval) (n : Nat) (e : Int) : Nat :=
  let (num, den) := tenPower n e
  let point := num * i.den
  let here := i.mid * den
  (point - here) + (here - point)

/-- The point of the grid `10 ^ e` that rounds to the number and is nearest to it. -/
def nearest? (i : Interval) (tie : Tie) (e : Int) : Option Nat :=
  let (num, den) := tenPower 1 e
  let below := i.mid * den / (num * i.den)
  match i.holds below e, i.holds (below + 1) e with
  | true, true =>
    let (left, right) := (i.distance below e, i.distance (below + 1) e)
    if left < right ∨ (left = right ∧ tie = .even ∧ below % 2 = 0) then some below
    else some (below + 1)
  | true, false => some below
  | false, true => some (below + 1)
  | false, false => none

end Interval

/-- The power of ten of the first digit of a positive fraction, found by scaling: multiply by ten
while it is below one. -/
def leadingBelowOne (num den : Nat) : Nat → Nat → Nat
  | 0, k => k
  | fuel + 1, k => if den ≤ num * Nat.pow 10 k then k else leadingBelowOne num den fuel (k + 1)

/-- The power of ten of the first digit of a positive fraction above `10 ^ (-400)`. -/
def leadingPower (num den : Nat) : Int :=
  if den ≤ num then ((toString (num / den)).length : Int) - 1
  else -(leadingBelowOne num den 400 1 : Int)

/-- The first grid, from the coarsest, with a point in the `Interval`. -/
def Interval.search (i : Interval) (tie : Tie) (lead : Int) : Nat → Nat → Decimal
  | 0, _ => ⟨0, 0⟩
  | fuel + 1, digits =>
    let e := lead + 1 - (digits : Int)
    match i.nearest? tie e with
    | some n => ⟨n, e⟩
    | none => i.search tie lead fuel (digits + 1)

def Decimal.trim (d : Decimal) : Nat → Decimal
  | 0 => d
  | fuel + 1 =>
    if d.digits ≠ 0 ∧ d.digits % 10 = 0 then
      (Decimal.mk (d.digits / 10) (d.exponent + 1)).trim fuel
    else d

/-- The fewest `Decimal` digits that read back as the magnitude of a finite number, and of those the
nearest to it. -/
def shortest (tie : Tie) (x : Binary64) : Decimal :=
  if x.isZero then ⟨0, 0⟩
  else
    let i := x.interval
    (i.search tie (leadingPower i.mid i.den) 18 1).trim 20

/-- Put a decimal point so that `places` digits follow it. -/
def pointed (digits : String) (places : Nat) : String :=
  let padded := "".pushn '0' (places + 1 - digits.length) ++ digits
  let cut := padded.length - places
  if places = 0 then padded
  else String.ofList (padded.toList.take cut) ++ "." ++ String.ofList (padded.toList.drop cut)

/-- Write a `Decimal` without an `exponent`. -/
def Decimal.positional (d : Decimal) : String :=
  if 0 ≤ d.exponent then
    if d.digits = 0 then "0" else (toString d.digits).pushn '0' d.exponent.toNat
  else pointed (toString d.digits) (-d.exponent).toNat

/-- The `shortest` digits without an exponent, a tie going up; an integral number has no point. -/
def positional (x : Binary64) : String :=
  if x.isNaN then "NaN"
  else
    let sign := if x.negative then "-" else ""
    if x.isFinite then sign ++ (x.shortest .up).positional else sign ++ "inf"

/-- A quotient rounded to the nearest natural, a tie to the even one. -/
def divRound (num den : Nat) : Nat :=
  let q := num / den
  let twice := 2 * (num % den)
  if den < twice ∨ (den = twice ∧ q % 2 = 1) then q + 1 else q

/-- The exact value rounded to a given number of decimal places. -/
def fixed (places : Nat) (x : Binary64) : String :=
  if x.isNaN then "NaN"
  else
    let sign := if x.negative then "-" else ""
    if x.isFinite then
      let i := x.interval
      sign ++ pointed (toString (divRound (i.mid * Nat.pow 10 places) i.den)) places
    else sign ++ "inf"

/-- The double nearest to `± digits * 10 ^ exponent`; `none` when that overflows. The exponent is
bounded first, so that no huge power is computed. -/
def ofDecimal? (negative : Bool) (digits : Nat) (exponent : Int) : Option Binary64 :=
  let lead := ((toString digits).length : Int) + exponent
  if digits = 0 ∨ lead < -400 then some (ofSignMagnitude negative 0)
  else if 400 < lead then none
  else
    let value := Float.ofScientific digits (decide (exponent < 0)) exponent.natAbs
    let x : Binary64 := ⟨value.toBits⟩
    if x.isFinite then some (ofSignMagnitude negative x.magnitude) else none

end Binary64

end Animator

/-!
# Binary64 numbers

A `Binary64` is a double-precision number given by its 64 bits, so that signed zeros and the
signs of NaNs are told apart. Reading the fields, the total order, and the conversions from
and to integers are exact computations on naturals; the four arithmetic operations round as
the hardware does.
-/

namespace Animator

/-- A double-precision number, represented by its bit pattern. -/
structure Binary64 where
  /-- Sign, exponent and fraction fields, from the top. -/
  bits : UInt64
  deriving DecidableEq, Repr, Inhabited

namespace Binary64

def negative (x : Binary64) : Bool :=
  decide (0x8000000000000000 ≤ x.bits.toNat)

/-- The exponent field, between `0` and `2047`. -/
def exponent (x : Binary64) : Nat :=
  x.bits.toNat / 0x10000000000000 % 2048

/-- The fraction field, below `2 ^ 52`. -/
def fraction (x : Binary64) : Nat :=
  x.bits.toNat % 0x10000000000000

/-- All `bits` but the sign, read as a natural number; it grows with the `magnitude`. -/
def magnitude (x : Binary64) : Nat :=
  x.bits.toNat % 0x8000000000000000

/-- Neither infinite nor a NaN. -/
def isFinite (x : Binary64) : Bool :=
  decide (x.exponent ≠ 2047)

/-- No number at all. -/
def isNaN (x : Binary64) : Bool :=
  decide (x.exponent = 2047 ∧ x.fraction ≠ 0)

def isZero (x : Binary64) : Bool :=
  decide (x.magnitude = 0)

/-- The natural `m` such that a finite number has magnitude `m * 2 ^ (scale - 1074)`. -/
def significand (x : Binary64) : Nat :=
  if x.exponent = 0 then x.fraction else 0x10000000000000 + x.fraction

/-- The power of two that goes with `significand`, counted from `-1074`. -/
def scale (x : Binary64) : Nat :=
  x.exponent - 1

/-- The integer part of the magnitude of a finite number, and whether that is all of it. -/
def truncated (x : Binary64) : Nat × Bool :=
  if 1074 ≤ x.scale then (x.significand * Nat.pow 2 (x.scale - 1074), true)
  else
    let unit := Nat.pow 2 (1074 - x.scale)
    (x.significand / unit, decide (x.significand % unit = 0))

def isIntegral (x : Binary64) : Bool :=
  x.isFinite && x.truncated.2

/-- The integer obtained by dropping the fractional part, or `none` when there is no finite
number to truncate. -/
def truncate? (x : Binary64) : Option Int :=
  if x.isFinite then
    some (if x.negative then -(x.truncated.1 : Int) else x.truncated.1)
  else none

/-- The greatest integer not above a finite number. -/
def floor? (x : Binary64) : Option Int :=
  if x.isFinite then
    some <|
      if x.negative then
        if x.truncated.2 then -(x.truncated.1 : Int) else -(x.truncated.1 : Int) - 1
      else x.truncated.1
  else none

/-- Fit an optional integer into a range: a missing one is `0` for a NaN, else the bound on
the side of the infinity. -/
def clampInto (low high : Int) (x : Binary64) : Option Int → Int
  | some n => max low (min high n)
  | none => if x.isNaN then 0 else if x.negative then low else high

/-- The place of a number in the total order of all bit patterns. -/
def key (x : Binary64) : Int :=
  if x.negative then -1 - (x.magnitude : Int) else x.magnitude

/-- The total order: by sign, then by size, NaNs at the ends. -/
def totalCompare (x y : Binary64) : Ordering :=
  Ord.compare x.key y.key

/-- Set the sign bit and the remaining bits. -/
def ofSignMagnitude (negative : Bool) (magnitude : Nat) : Binary64 :=
  ⟨UInt64.ofNat ((if negative then 0x8000000000000000 else 0) + magnitude % 0x8000000000000000)⟩

/-- Divide by a power of two, rounding to the nearest natural and a tie to the even one. -/
def shiftRound (m shift : Nat) : Nat :=
  let quotient := m / Nat.pow 2 shift
  let rest := m % Nat.pow 2 shift
  let half := Nat.pow 2 shift / 2
  if half < rest ∨ (half = rest ∧ 0 < shift ∧ quotient % 2 = 1) then quotient + 1 else quotient

/-- The bits of the double nearest to a natural that is below `2 ^ 1024` once rounded. A carry out
of the fraction moves into the exponent field, which is where it belongs. -/
def magnitudeOfNat (m : Nat) : Nat :=
  if m = 0 then 0
  else
    let log := m.log2
    let top := if log ≤ 52 then m * Nat.pow 2 (52 - log) else shiftRound m (log - 52)
    (log + 1023) * 0x10000000000000 + (top - 0x10000000000000)

/-- The double nearest to an integer. -/
def ofInt (n : Int) : Binary64 :=
  ofSignMagnitude (decide (n < 0)) (magnitudeOfNat n.natAbs)

/-- The quiet NaN with a clear sign. -/
def nan : Binary64 := ⟨0x7FF8000000000000⟩

/-- The quiet NaN with the sign set, which an operation without a result delivers. -/
def invalid : Binary64 := ⟨0xFFF8000000000000⟩

/-- Apply a rounding operation. A NaN operand is passed on, the first one first. -/
def rounded (op : Float → Float → Float) (x y : Binary64) : Binary64 :=
  if x.isNaN then x
  else if y.isNaN then y
  else
    let result := op (Float.ofBits x.bits) (Float.ofBits y.bits)
    if result.isNaN then invalid else ⟨result.toBits⟩

instance : Add Binary64 := ⟨rounded (· + ·)⟩
instance : Sub Binary64 := ⟨rounded (· - ·)⟩
instance : Mul Binary64 := ⟨rounded (· * ·)⟩
instance : Div Binary64 := ⟨rounded (· / ·)⟩

/-- Flip the sign, of zeros and NaNs too. -/
def neg (x : Binary64) : Binary64 :=
  ofSignMagnitude (!x.negative) x.magnitude

instance : Neg Binary64 := ⟨neg⟩

def abs (x : Binary64) : Binary64 :=
  ofSignMagnitude false x.magnitude

/-- Strictly below zero; neither zero nor a NaN is. -/
def isBelowZero (x : Binary64) : Bool :=
  x.negative && !x.isNaN && !x.isZero

end Binary64

end Animator

import ValueFlow.Decimal.Double

/-!
# The shortest decimal that reads back

A double stands for all reals that round to it, an interval around `m * 2 ^ q`
that contains its ends exactly when `m` is even. Of the decimals in that
interval `shortest` selects one with the fewest digits, and of those the one
nearest to the double. Two decimals can be equally near; the caller says whether
the even or the upper one is taken.

All comparisons are between natural numbers, after multiplying out the powers of
two and ten.
-/

namespace ValueFlow

/-- A non-negative decimal number, `digits * 10 ^ exponent`. -/
structure Decimal where
  /-- The digits, as an integer. -/
  digits : Nat
  /-- The power of ten that the integer is scaled by. -/
  exponent : Int
deriving DecidableEq

/-- Which of two equally near decimals is taken. -/
inductive Tie where
  /-- The one with an even last digit. -/
  | even
  /-- The larger one. -/
  | up
deriving DecidableEq

namespace Decimal

/-- Powers are those that the numbers come with, whatever other structure they
are given. -/
local instance (priority := high) corePow {α : Type} [NatPow α] : Pow α Nat := instPowNat

/-- The decimal `d * 10 ^ i` against `n * 2 ^ j`, compared exactly. -/
def compareBinary (d : Nat) (i : Int) (n : Nat) (j : Int) : Ordering :=
  compare (d * 10 ^ i.toNat * 2 ^ (-j).toNat) (n * 2 ^ j.toNat * 10 ^ (-i).toNat)

/-- **The decimal lies among the reals that round to the magnitude of `x`.** -/
def readsBack (x : Double) (d : Decimal) : Bool :=
  let m := x.mantissa
  let q := x.exponent - 2
  let low := if x.narrowBelow then 4 * m - 1 else 4 * m - 2
  let high := 4 * m + 2
  let closed := m % 2 == 0
  let atLow := compareBinary d.digits d.exponent low q
  let atHigh := compareBinary d.digits d.exponent high q
  (atLow == .gt || closed && atLow == .eq) && (atHigh == .lt || closed && atHigh == .eq)

/-- The magnitude of `x`, in units of `10 ^ i` and rounded down. -/
def floorAt (x : Double) (i : Int) : Nat :=
  (x.mantissa * 2 ^ x.exponent.toNat * 10 ^ (-i).toNat) / (2 ^ (-x.exponent).toNat * 10 ^ i.toNat)

/-- Of two neighbours on the grid `10 ^ i`, the one nearer to `x`. -/
def nearer (tie : Tie) (x : Double) (d : Nat) (i : Int) : Nat :=
  -- twice the magnitude of `x` against the sum of the neighbours `d` and `d + 1`
  match compareBinary (2 * d + 1) i (2 * x.mantissa) x.exponent with
  | .lt => d + 1
  | .gt => d
  | .eq => match tie with
    | .up => d + 1
    | .even => if d % 2 = 0 then d else d + 1

/-- A decimal on the grid `10 ^ i` that reads back as `x`, the nearest one, if
there is one. -/
def onGrid? (tie : Tie) (x : Double) (i : Int) : Option Decimal :=
  let d := floorAt x i
  match readsBack x ⟨d, i⟩, readsBack x ⟨d + 1, i⟩ with
  | true, true => some ⟨nearer tie x d i, i⟩
  | true, false => some ⟨d, i⟩
  | false, true => some ⟨d + 1, i⟩
  | false, false => none

/-- Moves trailing zeros of the digits into the exponent. -/
def stripZeros : Nat → Decimal → Decimal
  | 0, d => d
  | n + 1, d =>
    if d.digits ≠ 0 ∧ d.digits % 10 = 0 then stripZeros n ⟨d.digits / 10, d.exponent + 1⟩ else d

/-- The decimal exponent of the leading digit of a nonzero magnitude: it is
below `10 ^ (leading + 1)` and not below `10 ^ leading`. The smallest double
exceeds `10 ^ (-400)`, so in units of that size the count of digits tells. -/
def leading (x : Double) : Int :=
  (Nat.toDigits 10 (floorAt x (-400))).length - 401

/-- **The shortest decimal that reads back as `x`**, nearest of those, for the
magnitude of a finite `x`. Grids are tried from one digit on; seventeen digits
always suffice, and the value itself is the answer should they not. -/
def shortest (tie : Tie) (x : Double) : Decimal :=
  if x.mantissa = 0 then ⟨0, 0⟩
  else
    let top := leading x
    match (List.range 17).findSome? fun (n : Nat) => onGrid? tie x (top - n) with
    | some d => stripZeros 20 d
    | none => ⟨floorAt x (-1100), -1100⟩

end Decimal

end ValueFlow

/-!
# Doubles

A `Double` is an IEEE binary64 number, and **its identity is its bit pattern**:
`0.0` and `-0.0` are two numbers, and equality of doubles is decidable and
lawful.

The view used to compute with a finite double and to write it in decimal is
`mantissa * 2 ^ exponent` with a sign. Arithmetic is exact on natural numbers,
and `nearest` rounds the result once, as IEEE arithmetic does.
-/

namespace ValueFlow

/-- A binary64 number, given by its bits. -/
structure Double where
  /-- Sign, biased exponent and fraction. -/
  bits : UInt64
deriving DecidableEq, Inhabited

namespace Double

/-- Powers are those that the numbers come with, whatever other structure they
are given. -/
local instance (priority := high) corePow {α : Type} [NatPow α] : Pow α Nat := instPowNat

/-- The sign bit. -/
def isNegative (x : Double) : Bool := x.bits.toNat / 2 ^ (63 : Nat) == 1

/-- The biased exponent. -/
def exponentField (x : Double) : Nat := x.bits.toNat / 2 ^ (52 : Nat) % 2 ^ (11 : Nat)

/-- The fraction, without the implicit leading bit. -/
def fractionField (x : Double) : Nat := x.bits.toNat % 2 ^ (52 : Nat)

/-- Neither infinite nor a NaN. -/
def isFinite (x : Double) : Bool := x.exponentField != 2047

/-- The integer `m` of the magnitude `m * 2 ^ q`. -/
def mantissa (x : Double) : Nat :=
  if x.exponentField = 0 then x.fractionField else 2 ^ (52 : Nat) + x.fractionField

/-- The exponent `q` of the magnitude `m * 2 ^ q`. -/
def exponent (x : Double) : Int := (max x.exponentField 1 : Nat) - 1075

/-- **The gap to the next smaller magnitude is half the gap to the next larger
one.** This is so at the powers of two, the least normal one apart. -/
def narrowBelow (x : Double) : Bool := x.fractionField == 0 && x.exponentField > 1

/-- The opposite number: the sign bit flips, also of a zero. -/
def neg (x : Double) : Double := ⟨x.bits ^^^ 0x8000000000000000⟩

/-- Positive infinity, the reading of a decimal that is too large. -/
def infinity : Double := ⟨0x7FF0000000000000⟩

/-- A NaN. -/
def nan : Double := ⟨0x7FF8000000000000⟩

/-- Zero with the plus sign. -/
def zero : Double := ⟨0⟩

/-- The number with the given sign, another one's magnitude being given. -/
def signed (negative : Bool) (x : Double) : Double := if negative then x.neg else x

/-! ## Rounding -/

/-- The quotient `a / b` rounded to an integer, a tie going to the even one. -/
def roundQuotient (a b : Nat) : Nat :=
  let q := a / b
  match compare (2 * (a % b)) b with
  | .lt => q
  | .gt => q + 1
  | .eq => if q % 2 = 0 then q else q + 1

/-- The greatest `k` with `2 ^ k` not above `a / b`, both being positive. -/
def log2Quotient (a b : Nat) : Int :=
  let k : Int := a.log2 - b.log2
  if b * 2 ^ k.toNat ≤ a * 2 ^ (-k).toNat then k else k - 1

/-- **The magnitude nearest to `n / d * 2 ^ e`**, a tie going to the even
mantissa. What is beyond the largest double is infinite.

The mantissa has 53 bits unless that takes an exponent below the least one. Its
leading bit adds one to the exponent field, and so does a mantissa that was
rounded up to the next power of two. -/
def nearest (n d : Nat) (e : Int) : Double :=
  if n = 0 then zero
  else
    let a := n * 2 ^ e.toNat
    let b := d * 2 ^ (-e).toNat
    let q := max (log2Quotient a b - 52) (-1074)
    let m := roundQuotient (a * 2 ^ (-q).toNat) (b * 2 ^ q.toNat)
    ⟨UInt64.ofNat (min ((q + 1074).toNat * 2 ^ (52 : Nat) + m) (2047 * 2 ^ (52 : Nat)))⟩

/-! ## Arithmetic -/

/-- The mantissa with the sign of the number. -/
def signedMantissa (x : Double) : Int := if x.isNegative then -x.mantissa else x.mantissa

/-- The sum of two finite numbers. A sum of zero has the plus sign unless both
have the minus sign. -/
def addFinite (x y : Double) : Double :=
  let e := min x.exponent y.exponent
  let total := x.signedMantissa * 2 ^ (x.exponent - e).toNat
    + y.signedMantissa * 2 ^ (y.exponent - e).toNat
  if total = 0 then zero.signed (x.isNegative && y.isNegative)
  else (nearest total.natAbs 1 e).signed (total < 0)

/-- IEEE sum. -/
def add (x y : Double) : Double :=
  if x.isFinite && y.isFinite then addFinite x y
  else if x.isFinite then y
  else if y.isFinite then x
  else if x = y then x
  else nan

/-- IEEE difference. -/
def sub (x y : Double) : Double := x.add y.neg

/-- A NaN. -/
def isNaN (x : Double) : Bool := !x.isFinite && x.fractionField != 0

/-- IEEE product. -/
def mul (x y : Double) : Double :=
  let magnitude :=
    if x.isFinite && y.isFinite then nearest (x.mantissa * y.mantissa) 1 (x.exponent + y.exponent)
    else if x.isNaN || y.isNaN || x.mantissa = 0 || y.mantissa = 0 then nan
    else infinity
  magnitude.signed (x.isNegative != y.isNegative)

/-- IEEE quotient. -/
def div (x y : Double) : Double :=
  let magnitude :=
    if x.isNaN || y.isNaN then nan
    else if !x.isFinite then if y.isFinite then infinity else nan
    else if !y.isFinite then zero
    else if y.mantissa = 0 then if x.mantissa = 0 then nan else infinity
    else nearest x.mantissa y.mantissa (x.exponent - y.exponent)
  magnitude.signed (x.isNegative != y.isNegative)

/-! ## Comparison -/

/-- The place in the order of all numbers, the two zeros being in one place. -/
def place (x : Double) : Int :=
  let magnitude : Int := (x.bits.toNat % 2 ^ (63 : Nat) : Nat)
  if x.isNegative then -magnitude else magnitude

/-- IEEE equality: the two zeros are equal, and a NaN is equal to nothing. -/
def ieeeEq (x y : Double) : Bool := !x.isNaN && !y.isNaN && x.place = y.place

/-- IEEE order, strict. -/
def ieeeLt (x y : Double) : Bool := !x.isNaN && !y.isNaN && x.place < y.place

/-- IEEE order. -/
def ieeeLe (x y : Double) : Bool := !x.isNaN && !y.isNaN && x.place ≤ y.place

/-! ## Conversion -/

/-- The nearest double to an integer, a tie going to the even mantissa. -/
def ofInt (n : Int) : Double := (nearest n.natAbs 1 0).signed (n < 0)

/-- **The double nearest to `digits * 10 ^ exponent`**, with the given sign.

A decimal beyond the largest double reads as infinity and one far below the
smallest as zero; both are decided from the position of the leading digit,
before any power of ten is computed. -/
def ofDecimal (negative : Bool) (digits : Nat) (exponent : Int) : Double :=
  let leading := (Nat.toDigits 10 digits).length + exponent
  let magnitude :=
    if digits = 0 ∨ leading < -400 then zero
    else if leading > 400 then infinity
    else nearest (digits * 10 ^ exponent.toNat) (10 ^ (-exponent).toNat) 0
  magnitude.signed negative

end Double

end ValueFlow

import ValueFlow.Decimal.Shortest

/-!
# Writing a double in decimal

The digits of a finite double are those of its shortest decimal; where the point
goes, how a power of ten is written and what stands for a double that is not
finite are decisions of the format, and a `Layout` holds them. The project
writes numbers in two layouts, one for listings and one for JSON text.
-/

namespace ValueFlow

/-- **The decisions of a decimal format.** The decimal exponent of a number is
that of its leading digit: `0` for `1.5`, `-2` for `0.015`. -/
structure Layout where
  /-- Least decimal exponent written without a power of ten. -/
  plainFrom : Int
  /-- Greatest decimal exponent written without a power of ten. -/
  plainTo : Int
  /-- What stands before a non-negative power of ten. -/
  powerSign : String
  /-- Which of two equally near decimals is taken. -/
  tie : Tie
  /-- The text of every double that is not a number. -/
  nan : String
  /-- The text of an infinite double, by its being negative. -/
  infinite : Bool → String

namespace Layout

/-- Numbers in listings, names and messages: plain from `0.0001` up to, not
including, `1e16`. -/
def display : Layout where
  plainFrom := -4
  plainTo := 15
  powerSign := ""
  tie := .up
  nan := "NaN"
  infinite negative := if negative then "-inf" else "inf"

/-- Numbers in JSON text: plain from `0.00001` up to, not including, `1e+16`.
JSON has finite numbers only. -/
def json : Layout where
  plainFrom := -5
  plainTo := 15
  powerSign := "+"
  tie := .even
  nan := "null"
  infinite _ := "null"

/-- Digits with the point behind the digit of exponent zero, at least one digit
on either side. -/
def plain (digits : List Char) (top : Int) : List Char :=
  if top < 0 then
    '0' :: '.' :: List.replicate (-top - 1).toNat '0' ++ digits
  else
    let whole := digits.take (top.toNat + 1)
    let fraction := digits.drop (top.toNat + 1)
    whole ++ List.replicate (top.toNat + 1 - whole.length) '0' ++ '.' ::
      (if fraction.isEmpty then ['0'] else fraction)

/-- Digits with the point behind the first one, where more follow, and a power
of ten. -/
def scientific (l : Layout) (digits : List Char) (top : Int) : List Char :=
  let fraction := digits.drop 1
  digits.take 1 ++ (if fraction.isEmpty then [] else '.' :: fraction) ++ 'e' ::
    (if top < 0 then "-".toList else l.powerSign.toList) ++ Nat.toDigits 10 top.natAbs

/-- The text of a finite double. Zero counts as having decimal exponent zero,
and its sign is kept. -/
def renderFinite (l : Layout) (x : Double) : String :=
  let d := Decimal.shortest l.tie x
  let digits := Nat.toDigits 10 d.digits
  let top : Int := if d.digits = 0 then 0 else digits.length - 1 + d.exponent
  let magnitude :=
    if l.plainFrom ≤ top ∧ top ≤ l.plainTo then plain digits top else l.scientific digits top
  String.ofList (if x.isNegative then '-' :: magnitude else magnitude)

/-- **The text of a double.** All doubles that are not numbers have one text,
whatever their bits. -/
def render (l : Layout) (x : Double) : String :=
  if x.isNaN then l.nan
  else if x.isFinite then l.renderFinite x
  else l.infinite x.isNegative

end Layout

end ValueFlow

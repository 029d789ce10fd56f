import ValueFlow.Builtin
import ValueFlow.Operand

/-!
# Computing builtin operations on literals

`Builtin.fold` gives the result of an operation on literals when it can be
computed at compile time with the very result that the program would compute. It
has no result for operands of the wrong types, for integer results that do not
fit 64 bits, for division by zero and for doubles that leave the finite range.

Integers are computed in `Int`, where nothing overflows; `ofInt?` is the one
place where the width is checked.
-/

namespace ValueFlow

/-- The 64-bit literal of an integer that fits. -/
def Literal.ofInt? (n : Int) : Option Literal :=
  if Int64.minValue.toInt ≤ n ∧ n ≤ Int64.maxValue.toInt then some (.int (Int64.ofInt n)) else none

/-- The literal of a double that is finite. -/
def Literal.ofDouble? (x : Double) : Option Literal :=
  if x.isFinite then some (.float x) else none

namespace Builtin

/-- The result of an operation on one literal. -/
def foldUnary : Builtin → Literal → Option Literal
  | copy, l => some l
  | neg, .int n => Literal.ofInt? (-n.toInt)
  | neg, .float x => some (.float x.neg)
  | not, .bool b => some (.bool !b)
  | intToFloat, .int n => some (.float (Double.ofInt n.toInt))
  | _, _ => none

/-- **The result of an operation on two integers.** Division truncates toward
zero and the remainder has the sign of the dividend; neither has a result if the
quotient has none. -/
def foldInts (op : Builtin) (l r : Int) : Option Literal :=
  match op with
  | add => Literal.ofInt? (l + r)
  | sub => Literal.ofInt? (l - r)
  | mul => Literal.ofInt? (l * r)
  | div => if r = 0 then none else Literal.ofInt? (l.tdiv r)
  | mod =>
    if r = 0 then none
    else (Literal.ofInt? (l.tdiv r)).bind fun _ => Literal.ofInt? (l.tmod r)
  | eq => some (.bool (l = r))
  | ne => some (.bool (l ≠ r))
  | lt => some (.bool (l < r))
  | le => some (.bool (l ≤ r))
  | gt => some (.bool (r < l))
  | ge => some (.bool (r ≤ l))
  | _ => none

/-- The result of an operation on two doubles: IEEE arithmetic and comparison. -/
def foldDoubles (op : Builtin) (l r : Double) : Option Literal :=
  match op with
  | add => Literal.ofDouble? (l.add r)
  | sub => Literal.ofDouble? (l.sub r)
  | mul => Literal.ofDouble? (l.mul r)
  | div => Literal.ofDouble? (l.div r)
  | eq => some (.bool (l.ieeeEq r))
  | ne => some (.bool !(l.ieeeEq r))
  | lt => some (.bool (l.ieeeLt r))
  | le => some (.bool (l.ieeeLe r))
  | gt => some (.bool (r.ieeeLt l))
  | ge => some (.bool (r.ieeeLe l))
  | _ => none

/-- The result of an operation on two truth values. -/
def foldBools (op : Builtin) (l r : Bool) : Option Literal :=
  match op with
  | and => some (.bool (l && r))
  | or => some (.bool (l || r))
  | eq => some (.bool (l = r))
  | ne => some (.bool (l ≠ r))
  | _ => none

/-- The result of an operation on two texts. -/
def foldTexts (op : Builtin) (l r : String) : Option Literal :=
  match op with
  | concat => some (.str (l ++ r))
  | eq => some (.bool (l = r))
  | ne => some (.bool (l ≠ r))
  | _ => none

/-- The result of an operation on two literals, which must be of one type. -/
def foldBinary (op : Builtin) : Literal → Literal → Option Literal
  | .int l, .int r => op.foldInts l.toInt r.toInt
  | .float l, .float r => op.foldDoubles l r
  | .bool l, .bool r => op.foldBools l r
  | .str l, .str r => op.foldTexts l r
  | _, _ => none

/-- **The result of an operation on literals**, one or two of them. -/
def fold (op : Builtin) : List Literal → Option Literal
  | [x] => op.foldUnary x
  | [l, r] => op.foldBinary l r
  | _ => none

/-- The result of an operation on operands, all of which must be literals. -/
def foldOperands (op : Builtin) (inputs : List Operand) : Option Literal :=
  (inputs.mapM Operand.lit?).bind op.fold

end Builtin

end ValueFlow

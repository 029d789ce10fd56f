/-!
# Builtin operations

The operations that the language itself knows. An operation is *commutative* if
the order of its operands does not matter.
-/

namespace ValueFlow

/-- A builtin operation. -/
inductive Builtin where
  | add
  | sub
  | mul
  | div
  | mod
  | neg
  | eq
  | ne
  | lt
  | le
  | gt
  | ge
  | and
  | or
  | not
  | concat
  | intToFloat
  /-- A copy of the only operand. -/
  | copy
deriving DecidableEq

namespace Builtin

/-- The order of the operands does not matter. -/
def isCommutative : Builtin → Bool
  | add | mul | eq | ne | and | or => true
  | _ => false

/-- The word for the operation in listings. -/
def text : Builtin → String
  | add => "add"
  | sub => "sub"
  | mul => "mul"
  | div => "div"
  | mod => "mod"
  | neg => "neg"
  | eq => "eq"
  | ne => "ne"
  | lt => "lt"
  | le => "le"
  | gt => "gt"
  | ge => "ge"
  | and => "and"
  | or => "or"
  | not => "not"
  | concat => "concat"
  | intToFloat => "itof"
  | copy => "copy"

end Builtin

end ValueFlow

import ValueFlow.Decimal.Layout
import ValueFlow.Text.Quoted
import ValueFlow.Var

/-!
# Literals and operands

An operand is a variable or a literal. Literals are equal when they are the same
value of the same type, doubles by their bits; operands are **the same** when
they are occurrences of one variable or equal literals. `Operand.key` is what an
operand is identified by.
-/

namespace ValueFlow

/-- A literal value. -/
inductive Literal where
  | int (n : Int64)
  | float (x : Double)
  | bool (b : Bool)
  | str (s : String)
  | null
deriving DecidableEq

namespace Literal

/-- The scalar type of a literal; `null` has none. -/
def type? : Literal → Option Scalar
  | int _ => some .int
  | float _ => some .float
  | bool _ => some .bool
  | str _ => some .string
  | null => none

/-- The literal in listings. -/
def text : Literal → String
  | int n => toString n.toInt
  | float x => Layout.display.render x
  | bool b => if b then "true" else "false"
  | str s => Text.quote s
  | null => "null"

/-- A number for each kind of literal, in the order in which operands are sorted. -/
def rank : Literal → Nat
  | int _ => 1
  | float _ => 2
  | bool _ => 3
  | str _ => 4
  | null => 5

end Literal

/-- An operand of an instruction or a continuation. -/
inductive Operand where
  | var (v : Var)
  | lit (l : Literal)
deriving DecidableEq

namespace Operand

/-- What an operand is identified by: the name of a variable, or the literal. -/
def key : Operand → String ⊕ Literal
  | var v => .inl v.name
  | lit l => .inr l

/-- **The two operands are the same**: occurrences of one variable, or equal
literals. -/
def same (a b : Operand) : Bool := a.key = b.key

/-- The variable, if it is one. -/
def var? : Operand → Option Var
  | var v => some v
  | lit _ => none

/-- The literal, if it is one. -/
def lit? : Operand → Option Literal
  | var _ => none
  | lit l => some l

/-- It is a variable. -/
def isVar (a : Operand) : Bool := a.var?.isSome

/-- It is a literal. -/
def isLit (a : Operand) : Bool := a.lit?.isSome

/-- The scalar type of a literal operand other than `null`. -/
def literalType? (a : Operand) : Option Scalar := a.lit?.bind Literal.type?

/-- The operand in listings. -/
def text : Operand → String
  | var v => v.name
  | lit l => l.text

/-- **The operand can stand wherever `v` is read.** A variable needs the same
type; a literal stands only for a task-local value of its scalar type, and
`null` for nothing. -/
def compatibleWith (a : Operand) (v : Var) : Bool :=
  match a with
  | var w => w.ty = v.ty
  | lit .null => false
  | lit l => v.ty.isValue && l.type? = v.ty.scalar?

/-- The operand with its variable replaced. -/
def mapVar (f : Var → Var) : Operand → Operand
  | var v => var (f v)
  | lit l => lit l

end Operand

end ValueFlow

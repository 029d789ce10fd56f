import ValueFlow.Dict
import ValueFlow.Operand

/-!
# Shared constants

A literal that several functions need as a future is stored once, in a table of
constants that all functions see. The name of such a constant is determined by
its literal, so equal literals share one variable. `Constants` is the table; a
`Pool` is the table as one function sees it together with the constants that
this function adds.
-/

namespace ValueFlow

/-- A constant: its variable and what it holds. -/
structure Constant where
  var : Var
  value : Operand
deriving DecidableEq

namespace Constant

/-- **The name of the constant that holds a literal.** The kind of the literal
is part of the name; `null` has no constant. -/
def nameFor? : Literal → Option String
  | .int n => some ("__c:i:" ++ (Literal.int n).text)
  | .float x => some ("__c:f:" ++ (Literal.float x).text)
  | .bool b => some ("__c:b:" ++ (Literal.bool b).text)
  | .str s => some ("__c:s:" ++ (Literal.str s).text)
  | .null => none

/-- The constant that holds a literal. -/
def make? (l : Literal) (provenance : Provenance) : Option Constant := do
  let name ← nameFor? l
  let s ← l.type?
  return ⟨⟨name, .future s, .globalConst, .globalConst, provenance⟩, .lit l⟩

end Constant

/-- A table of constants. -/
structure Constants where
  table : Dict Constant
deriving DecidableEq, Inhabited

namespace Constants

/-- The table without constants. -/
def empty : Constants := ⟨.empty⟩

/-- The constant entered under a name. -/
def get? (t : Constants) (name : String) : Option Constant := t.table.get? name

/-- What the constant with this variable's name holds. -/
def valueOf? (t : Constants) (v : Var) : Option Operand := (t.get? v.name).map (·.value)

/-- Enters a constant under the name of its variable, unless the name is taken. -/
def insert (t : Constants) (c : Constant) : Constants := ⟨t.table.insertNew c.var.name c⟩

/-- The variable of the constant that holds a literal, which is made if it is
not there. -/
def getOrCreate (t : Constants) (l : Literal) : Option Var × Constants :=
  match Constant.nameFor? l, Constant.make? l .unknown with
  | some name, some created =>
    match t.get? name with
    | some c => (some c.var, t)
    | none => (some created.var, ⟨t.table.insert name created⟩)
  | _, _ => (none, t)

/-- Enters all constants of another table. -/
def merge (t other : Constants) : Constants := other.table.values.foldl insert t

/-- The number of constants. -/
def size (t : Constants) : Nat := t.table.size

/-- There are no constants. -/
def isEmpty (t : Constants) : Bool := t.table.isEmpty

end Constants

/-- **The constants that one function sees**: those of the program and those it
adds. -/
structure Pool where
  /-- The constants of the program. -/
  globals : Constants
  /-- The constants added so far. -/
  created : Constants

namespace Pool

/-- The variable of the constant that holds a literal. One that neither table
has is made and added. -/
def getOrCreate (p : Pool) (l : Literal) : Option Var × Pool :=
  match Constant.nameFor? l, Constant.make? l .optimizer with
  | some name, some made =>
    match (p.globals.get? name).or (p.created.get? name) with
    | some c => (some c.var, p)
    | none => (some made.var, { p with created := p.created.insert made })
  | _, _ => (none, p)

/-- What a constant holds; other variables hold nothing known. -/
def valueOf? (p : Pool) (v : Var) : Option Operand :=
  if v.isGlobalConst then (p.globals.valueOf? v).or (p.created.valueOf? v) else none

/-- The operand if it is a literal, or what it holds if it is a constant. -/
def literal? (p : Pool) : Operand → Option Operand
  | .var v => p.valueOf? v
  | .lit l => some (.lit l)

end Pool

end ValueFlow

import ValueFlow.Builtin
import ValueFlow.Dict
import ValueFlow.Fault

/-!
# Foreign functions

A program may call functions written elsewhere. The registry says of each what
matters for optimisation: whether equal inputs give equal outputs, whether it
acts on the outside world, whether the order of its inputs matters, and which
builtin operation, if any, computes the same result.
-/

namespace ValueFlow

/-- A foreign function. -/
structure ForeignFunction where
  name : String
  /-- Equal inputs always give equal outputs. -/
  deterministic : Bool
  /-- It acts on more than its outputs. -/
  sideEffects : Bool
  commutative : Bool
  /-- The builtin operation with the same result. -/
  builtin : Option Builtin
deriving DecidableEq

namespace ForeignFunction

/-- A deterministic function without side effects. -/
def pure (name : String) : ForeignFunction := ⟨name, true, false, false, none⟩

/-- A function that acts on the outside world. -/
def effectful (name : String) : ForeignFunction := ⟨name, false, true, false, none⟩

/-- The function with the result, and the commutativity, of a builtin operation. -/
def withBuiltin (f : ForeignFunction) (op : Builtin) : ForeignFunction :=
  { f with commutative := op.isCommutative, builtin := some op }

end ForeignFunction

/-- The registry of foreign functions. -/
structure Foreign where
  functions : Dict ForeignFunction
deriving DecidableEq, Inhabited

namespace Foreign

/-- The registry without functions. -/
def empty : Foreign := ⟨.empty⟩

/-- Registers a function under its name, in place of an earlier one. -/
def register (r : Foreign) (f : ForeignFunction) : Foreign :=
  ⟨r.functions.insert f.name f⟩

/-- The function registered under a name. -/
def lookup (r : Foreign) (name : String) : Except Fault ForeignFunction :=
  match r.functions.get? name with
  | some f => .ok f
  | none => .error (.unknownFunction name)

end Foreign

end ValueFlow

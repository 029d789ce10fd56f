import ValueFlow.Block
import ValueFlow.Constants

/-!
# Programs

A program is a list of functions with the constants that they share and the
registry of the foreign functions that they call.
-/

namespace ValueFlow

/-- A function. -/
structure Function where
  name : String
  inputs : List Var
  outputs : List Var
  target : Target
  block : Block
deriving DecidableEq

namespace Function

/-- A function with an empty block. -/
def new (name : String) (inputs outputs : List Var) (target : Target) : Function :=
  ⟨name, inputs, outputs, target, .empty⟩

/-- The function with every variable replaced. -/
def mapVars (f : Function) (g : Var → Var) : Function :=
  { f with inputs := f.inputs.map g, outputs := f.outputs.map g, block := f.block.mapVars g }

/-- The two functions are the same, variables being compared by name. -/
def same (f g : Function) : Bool := f.mapVars Var.bare = g.mapVars Var.bare

end Function

/-- A program. -/
structure Program where
  functions : List Function
  globals : Constants
  foreign : Foreign
deriving DecidableEq

end ValueFlow

/-!
# Settings and counters

`Settings` says what the optimiser may do; `Stats` counts what it did.
-/

namespace ValueFlow

/-- What the optimiser may do. -/
structure Settings where
  /-- Compute operations on literals. -/
  constantFold : Bool := true
  /-- Share constants between functions. -/
  sharedConstants : Bool := true
  /-- Drop closed variables from waits. -/
  pruneWaits : Bool := true
  /-- Keep the facts that all arms of a conditional agree on. -/
  branchMerge : Bool := true
  /-- How often all passes are run at most. -/
  maxIterations : Nat := 10
deriving DecidableEq, Inhabited

/-- **What was done.** -/
structure Stats where
  instructionsRemoved : Nat := 0
  operandsReplaced : Nat := 0
  waitVarsPruned : Nat := 0
  instructionsFolded : Nat := 0
  branchesFolded : Nat := 0
  /-- Facts carried out of conditionals. -/
  factsRetained : Nat := 0
deriving DecidableEq, Inhabited

namespace Stats

/-- Both counts together. -/
def add (a b : Stats) : Stats where
  instructionsRemoved := a.instructionsRemoved + b.instructionsRemoved
  operandsReplaced := a.operandsReplaced + b.operandsReplaced
  waitVarsPruned := a.waitVarsPruned + b.waitVarsPruned
  instructionsFolded := a.instructionsFolded + b.instructionsFolded
  branchesFolded := a.branchesFolded + b.branchesFolded
  factsRetained := a.factsRetained + b.factsRetained

/-- Something was changed. Facts that were kept are no change. -/
def changed (s : Stats) : Bool :=
  0 < s.instructionsRemoved + s.operandsReplaced + s.waitVarsPruned + s.instructionsFolded
    + s.branchesFolded

end Stats

end ValueFlow

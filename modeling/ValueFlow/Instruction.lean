import ValueFlow.Alias
import ValueFlow.Foreign
import ValueFlow.Operand

/-!
# Instructions

What an instruction reads, writes, defines, closes and aliases is given by one
small function each, and the analyses are written in terms of these functions
only.

Every operand that is read has a *role*, which decides what may be put in its
place: a value can be replaced by a literal, an operand that the runtime waits
for only by another variable, an operand that is read at once only by a variable
that is closed already, and a container by nothing.
-/

namespace ValueFlow

/-- When an operation is carried out. -/
inductive Timing where
  /-- By the task itself, on values. -/
  | now
  /-- As soon as the futures it reads are closed. -/
  | later
deriving DecidableEq

/-- An instruction. -/
inductive Instruction where
  /-- Assigns a future, which closes it. -/
  | storeScalar (dst : Var) (src : Operand)
  /-- Retrieves the value of a future. -/
  | loadScalar (dst src : Var)
  /-- Makes a reference to a datum. -/
  | storeRef (dst src : Var)
  /-- Follows a reference. -/
  | loadRef (dst src : Var)
  /-- A builtin operation. -/
  | compute (timing : Timing) (op : Builtin) (dst : Var) (inputs : List Operand)
  /-- A call of a foreign function. -/
  | call (timing : Timing) (function : String) (outputs : List Var) (inputs : List Operand)
  /-- Takes a field out of a record. -/
  | readField (access : Access) (dst record : Var) (path : List String)
  /-- Stores into a field of a record. -/
  | writeField (record : Var) (path : List String) (src : Operand)
  /-- Takes an element out of an array. -/
  | readElement (access : Access) (dst arr : Var) (ix : Operand)
  /-- Stores into an element of an array. -/
  | writeElement (arr : Var) (ix src : Operand)
deriving DecidableEq

/-- **The role of an operand that is read.** -/
inductive Role where
  /-- A task-local value or a literal. -/
  | value
  /-- A future that the runtime waits for. -/
  | awaited
  /-- A future or reference read at once, which must be closed already. -/
  | retrieved
  /-- A container, of which only the identity matters. -/
  | container
deriving DecidableEq

/-- The role of the inputs of an operation. -/
def Timing.role : Timing → Role
  | now => .value
  | later => .awaited

namespace Instruction

/-- The variables that the instruction defines or binds. -/
def outputs : Instruction → List Var
  | storeScalar dst _ => [dst]
  | loadScalar dst _ => [dst]
  | storeRef dst _ => [dst]
  | loadRef dst _ => [dst]
  | compute _ _ dst _ => [dst]
  | call _ _ outputs _ => outputs
  | readField _ dst _ _ => [dst]
  | writeField .. => []
  | readElement _ dst _ _ => [dst]
  | writeElement .. => []

/-- The instruction gives a name to a part of a container and assigns nothing. -/
def bindsAlias : Instruction → Bool
  | readField .bind .. => true
  | readElement .bind .. => true
  | _ => false

/-- The outputs that may be assigned only once: those with storage of their own. -/
def assigned (i : Instruction) : List Var :=
  if i.bindsAlias then [] else i.outputs.filter (·.alloc ≠ .part)

/-- The operands that are read, with their roles. -/
def reads : Instruction → List (Role × Operand)
  | storeScalar _ src => [(.value, src)]
  | loadScalar _ src => [(.retrieved, .var src)]
  | storeRef _ src => [(.container, .var src)]
  | loadRef _ src => [(.retrieved, .var src)]
  | compute timing _ _ inputs => inputs.map (timing.role, ·)
  | call timing _ _ inputs => inputs.map (timing.role, ·)
  | readField _ _ record _ => [(.container, .var record)]
  | writeField record _ src => [(.container, .var record), (.value, src)]
  | readElement _ _ arr ix => [(.container, .var arr), (.value, ix)]
  | writeElement arr ix src => [(.container, .var arr), (.value, ix), (.value, src)]

/-- The variables that are read. -/
def readVars (i : Instruction) : List Var := i.reads.filterMap (·.2.var?)

/-- The operands that may be replaced: all but the containers. -/
def replaceable (i : Instruction) : List (Role × Operand) :=
  i.reads.filter (·.1 ≠ .container)

/-- A variable in place of another one; a literal is not accepted. -/
def varOr (old : Var) : Operand → Var
  | .var v => v
  | .lit _ => old

/-- The instruction with its replaceable operands transformed. What is read at
once stays a variable. -/
def mapOperands (f : Role → Operand → Operand) : Instruction → Instruction
  | storeScalar dst src => storeScalar dst (f .value src)
  | loadScalar dst src => loadScalar dst (varOr src (f .retrieved (.var src)))
  | storeRef dst src => storeRef dst src
  | loadRef dst src => loadRef dst (varOr src (f .retrieved (.var src)))
  | compute timing op dst inputs => compute timing op dst (inputs.map (f timing.role))
  | call timing function outputs inputs =>
    call timing function outputs (inputs.map (f timing.role))
  | readField access dst record path => readField access dst record path
  | writeField record path src => writeField record path (f .value src)
  | readElement access dst arr ix => readElement access dst arr (f .value ix)
  | writeElement arr ix src => writeElement arr (f .value ix) (f .value src)

/-- The instruction with its replaceable operand number `k` replaced, counted
from zero. -/
def setOperand (i : Instruction) (k : Nat) (a : Operand) : Instruction :=
  match i, k with
  | storeScalar dst _, 0 => storeScalar dst a
  | loadScalar dst src, 0 => loadScalar dst (varOr src a)
  | loadRef dst src, 0 => loadRef dst (varOr src a)
  | compute timing op dst inputs, k => compute timing op dst (inputs.set k a)
  | call timing function outputs inputs, k => call timing function outputs (inputs.set k a)
  | writeField record path _, 0 => writeField record path a
  | readElement access dst arr _, 0 => readElement access dst arr a
  | writeElement arr _ src, 0 => writeElement arr a src
  | writeElement arr ix _, 1 => writeElement arr ix a
  | i, _ => i

/-- The storage written: a variable and a path into it. Storing into an output
that is a part of another variable writes that variable, so such outputs count
too. -/
def writes (i : Instruction) : List (Var × List Step) :=
  match i with
  | writeField record path _ => [(record, fieldSteps path)]
  | writeElement arr _ _ => [(arr, [.unknown])]
  | i => if i.bindsAlias then [] else i.outputs.map (·, [])

/-- The variables known to be closed once the instruction has been carried out. -/
def closes (i : Instruction) : List Var :=
  let future := match i with
    | storeScalar dst _ => [dst]
    | storeRef dst _ => [dst]
    | loadScalar _ src => [src]
    | loadRef _ src => [src]
    | _ => []
  future ++ i.outputs.filter (·.isLocalValue)

/-- The alias facts that the instruction creates. -/
def aliases : Instruction → Except Fault (List Alias)
  | readField access dst record path => do return (← Alias.ofStruct? record path access dst).toList
  | readElement access dst arr _ => .ok (Alias.ofArray? arr access dst).toList
  | _ => .ok []

/-- The instruction acts on more than its outputs. -/
def hasSideEffects (i : Instruction) (foreign : Foreign) : Except Fault Bool :=
  match i with
  | call _ function _ _ => do return (← foreign.lookup function).sideEffects
  | storeScalar .. | storeRef .. | writeField .. | writeElement .. => .ok true
  | _ => .ok false

/-- The kind of instruction only computes its outputs, a foreign call as far as
its function does. -/
def onlyComputes : Instruction → Bool
  | loadScalar .. | loadRef .. | compute .. | call .. => true
  | readField .retrieve .. | readElement .retrieve .. => true
  | _ => false

/-- **The instruction may be deleted** once nothing reads its outputs. -/
def isRemovable (i : Instruction) (foreign : Foreign) : Except Fault Bool :=
  if i.onlyComputes then do return !(← i.hasSideEffects foreign) else .ok false

/-- The instruction with every variable replaced. -/
def mapVars (f : Var → Var) : Instruction → Instruction
  | storeScalar dst src => storeScalar (f dst) (src.mapVar f)
  | loadScalar dst src => loadScalar (f dst) (f src)
  | storeRef dst src => storeRef (f dst) (f src)
  | loadRef dst src => loadRef (f dst) (f src)
  | compute timing op dst inputs => compute timing op (f dst) (inputs.map (·.mapVar f))
  | call timing function outputs inputs =>
    call timing function (outputs.map f) (inputs.map (·.mapVar f))
  | readField access dst record path => readField access (f dst) (f record) path
  | writeField record path src => writeField (f record) path (src.mapVar f)
  | readElement access dst arr ix => readElement access (f dst) (f arr) (ix.mapVar f)
  | writeElement arr ix src => writeElement (f arr) (ix.mapVar f) (src.mapVar f)

/-- The two instructions are the same, variables being compared by name. -/
def same (a b : Instruction) : Bool := a.mapVars Var.bare = b.mapVars Var.bare

end Instruction

end ValueFlow

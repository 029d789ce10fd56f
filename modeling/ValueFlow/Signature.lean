import ValueFlow.Instruction

/-!
# Signatures

A signature names the value that an instruction computes by its operation and
its inputs, so that two instructions with the same signature compute the same
value. The inputs of a commutative operation are kept sorted, by kind and then
by their text, so their order is forgotten.

A signature that reads storage (`isRetrieve`) holds only as long as that storage
is not written; `location?` gives the storage.
-/

namespace ValueFlow

/-- What a signature computes. -/
inductive Opcode where
  /-- The future that holds the input. -/
  | assign
  /-- The value retrieved from the input. -/
  | retrieve
  /-- The reference to the input. -/
  | assignRef
  /-- The datum that the input refers to. -/
  | retrieveRef
  | builtin (timing : Timing) (op : Builtin)
  /-- One output of a foreign function. -/
  | foreign (function : String) (timing : Timing) (output : Nat)
  | fieldRetrieve (path : List String)
  | fieldCopy (path : List String)
  | elementRetrieve
  | elementCopy
deriving DecidableEq

/-- The first input is a container out of which something is read. -/
def Opcode.readsContainer : Opcode → Bool
  | fieldRetrieve _ | fieldCopy _ | elementRetrieve | elementCopy => true
  | _ => false

/-- The way from the first input to the storage that is read, if any is. -/
def Opcode.readPath? : Opcode → Option (List Step)
  | retrieve | retrieveRef => some []
  | fieldRetrieve path | fieldCopy path => some (fieldSteps path)
  | elementRetrieve | elementCopy => some [.unknown]
  | _ => none

namespace Operand

/-- A number for each kind of operand, in sorting order. -/
def rank : Operand → Nat
  | var _ => 0
  | lit l => l.rank

/-- The operand comes first, or both are on a par: by kind, then by text. -/
def sortsBefore (a b : Operand) : Bool :=
  a.rank < b.rank || a.rank = b.rank && !(b.text < a.text)

/-- Puts an operand in front of the first one that it sorts before. -/
def insertSorted (a : Operand) : List Operand → List Operand
  | [] => [a]
  | b :: rest => if a.sortsBefore b then a :: b :: rest else b :: insertSorted a rest

/-- Sorts operands, keeping the order of those on a par. -/
def sort (inputs : List Operand) : List Operand := inputs.foldr insertSorted []

end Operand

/-- The name of a computed value. -/
structure Signature where
  op : Opcode
  inputs : List Operand
  /-- The order of the inputs does not matter. -/
  commutative : Bool

namespace Signature

/-- The signature with its inputs in normal order. -/
def normalize (s : Signature) : Signature :=
  if s.commutative then { s with inputs := Operand.sort s.inputs } else s

/-- The signature of an operation and its inputs. -/
def make (op : Opcode) (inputs : List Operand) (commutative : Bool) : Signature :=
  normalize ⟨op, inputs, commutative⟩

/-- A signature in which the order of the inputs matters. -/
def plain (op : Opcode) (inputs : List Operand) : Signature := ⟨op, inputs, false⟩

/-- The signature of a builtin operation. -/
def ofBuiltin (timing : Timing) (op : Builtin) (inputs : List Operand) : Signature :=
  make (.builtin timing op) inputs op.isCommutative

/-- What a signature is identified by. -/
def key (s : Signature) : Opcode × List (String ⊕ Literal) × Bool :=
  (s.op, s.inputs.map Operand.key, s.commutative)

/-- The two signatures are the same. -/
def same (a b : Signature) : Bool := a.key = b.key

/-- Transforms the inputs, except that a container stays as it is. -/
def mapInputs (s : Signature) (f : Operand → Operand) : Signature :=
  let kept := if s.op.readsContainer then 1 else 0
  normalize { s with inputs := s.inputs.take kept ++ (s.inputs.drop kept).map f }

/-- The value is read out of storage, so writes may change it. -/
def isRetrieve (s : Signature) : Bool := s.op.readPath?.isSome

/-- **The storage that is read.** -/
def location? (s : Signature) (aliases : AliasMap) : Option Location := do
  let src ← (← s.inputs.head?).var?
  let path ← s.op.readPath?
  return (aliases.location src).extend path

/-- The variables among the inputs. -/
def vars (s : Signature) : List Var := s.inputs.filterMap Operand.var?

end Signature

/-- What is known about the value of a signature once its instruction has been
carried out. -/
inductive Binding where
  /-- It was computed into this variable. -/
  | output (v : Var)
  /-- It equals this operand. -/
  | known (a : Operand)

namespace Instruction

/-- The signatures of the outputs of a foreign call, from output number `k` on. -/
def callSignatures (timing : Timing) (f : ForeignFunction) (function : String)
    (inputs : List Operand) (k : Nat) : List Var → List (Signature × Binding)
  | [] => []
  | out :: rest =>
    (.make (.foreign function timing k) inputs f.commutative, .output out)
      :: callSignatures timing f function inputs (k + 1) rest

/-- **The values that an instruction makes available.** A store also says what a
later read of the same storage gives, and a load what a later store would hold.
A foreign function that is not deterministic makes nothing available, and one
that does a builtin operation is that operation. -/
def signatures (i : Instruction) (foreign : Foreign) :
    Except Fault (List (Signature × Binding)) :=
  match i with
  | storeScalar dst src => .ok
    [(.plain .assign [src], .output dst), (.plain .retrieve [.var dst], .known src)]
  | loadScalar dst src => .ok
    [(.plain .retrieve [.var src], .output dst), (.plain .assign [.var dst], .known (.var src))]
  | storeRef dst src => .ok
    [(.plain .assignRef [.var src], .output dst),
      (.plain .retrieveRef [.var dst], .known (.var src))]
  | loadRef dst src => .ok
    [(.plain .retrieveRef [.var src], .output dst),
      (.plain .assignRef [.var dst], .known (.var src))]
  | compute timing op dst inputs => .ok [(.ofBuiltin timing op inputs, .output dst)]
  | call timing function outputs inputs => do
    let f ← foreign.lookup function
    if !f.deterministic then return []
    match f.builtin, outputs with
    | some op, [out] => return [(.ofBuiltin timing op inputs, .output out)]
    | _, _ => return callSignatures timing f function inputs 0 outputs
  | readField .bind .. => .ok []
  | readField .retrieve dst record path => .ok
    [(.plain (.fieldRetrieve path) [.var record], .output dst)]
  | readField .copy dst record path => .ok [(.plain (.fieldCopy path) [.var record], .output dst)]
  | writeField record path src => .ok [(.plain (.fieldRetrieve path) [.var record], .known src)]
  | readElement .bind .. => .ok []
  | readElement .retrieve dst arr ix => .ok
    [(.plain .elementRetrieve [.var arr, ix], .output dst)]
  | readElement .copy dst arr ix => .ok [(.plain .elementCopy [.var arr, ix], .output dst)]
  | writeElement arr ix src => .ok [(.plain .elementRetrieve [.var arr, ix], .known src)]

end Instruction

end ValueFlow

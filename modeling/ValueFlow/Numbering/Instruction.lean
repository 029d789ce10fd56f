import ValueFlow.Builtin.Fold
import ValueFlow.Numbering.State

/-!
# Numbering the values of an instruction

An instruction is visited in a fixed order: its variables are checked, its
operands are replaced by their representatives, its outputs are assigned, its
writes end what is known about the storage they touch, its values are looked up
or entered, it is folded if its value is a literal, and what it closes is noted.
-/

namespace ValueFlow.Numbering

/-- The variable may be used: it is declared in an open scope, or it is a known
constant. -/
def State.knows (s : State) (v : Var) : Bool :=
  s.facts.isDeclared v || (s.pool.valueOf? v).isSome

/-- The fault of the first variable that may not be used. -/
def Context.undeclared? (ctx : Context) (s : State) (vars : List Var) : Option Fault :=
  (vars.find? (!s.knows ·)).map fun v => .undeclared v.name ctx.function

/-! ## Replacing operands -/

/-- **The operand that may stand in place of another one**: its representative,
if that is something else and the role of the operand admits it. -/
def replacement? (facts : Congruence) (role : Role) (a : Operand) : Option Operand := do
  let v ← a.var?
  let rep ← facts.canonical? v
  if rep.same a then none
  else
    let admitted := match role, rep with
      | .value, rep => rep.compatibleWith v
      | .awaited, rep => rep.isVar && rep.compatibleWith v
      | .retrieved, .var r => r.ty = v.ty && facts.isClosed r
      | .retrieved, .lit _ => false
      | .container, _ => false
    if admitted then some rep else none

/-- The operand that is read from now on. -/
def replace (facts : Congruence) (role : Role) (a : Operand) : Operand :=
  (replacement? facts role a).getD a

/-- How many of some operands are replaced. -/
def countReplaced (facts : Congruence) (reads : List (Role × Operand)) : Nat :=
  reads.countP fun r => (replacement? facts r.1 r.2).isSome

/-- Counts replaced operands. -/
def State.replaced (s : State) (n : Nat) : State :=
  { s with stats.operandsReplaced := s.stats.operandsReplaced + n }

/-- Replaces the operands of an instruction. -/
def substitute (i : Instruction) (s : State) : Instruction × State :=
  let n := countReplaced s.facts i.replaceable
  if n = 0 then (i, s)
  else
    let i := i.mapOperands (replace s.facts)
    (i, (s.emit (.substituted i)).replaced n)

/-- Replaces an operand that governs a continuation. -/
def substituteOperand (a : Operand) (s : State) : Operand × State :=
  (replace s.facts .value a, s.replaced (countReplaced s.facts [(.value, a)]))

/-! ## Writes -/

/-- A write to storage: what was read from it is known no longer. -/
def write (ctx : Context) (s : State) (target : Var × List Step) : State :=
  match ctx.aliases.written? target.1 target.2 with
  | none => s
  | some l =>
    let (count, facts) := s.facts.invalidate ctx.aliases l
    let s := { s with facts }
    if 0 < count then s.emit (.invalidated l count) else s

/-! ## Values -/

/-- The shared constant that holds a literal, as an operand. -/
def constantFor (l : Literal) (s : State) : Option Operand × State :=
  let (v, pool) := s.pool.getOrCreate l
  (v.map .var, { s with pool })

/-- **The value of a signature that follows from the signature alone**: a stored
literal is a shared constant, retrieving a constant gives what it holds, a copy
is its input, and an operation on literals is folded. A deferred operation also
sees through constants and gives a constant. -/
def resolve (ctx : Context) (sig : Signature) (s : State) : Option Operand × State :=
  match sig.op, sig.inputs with
  | .assign, [.lit l] => if ctx.settings.sharedConstants then constantFor l s else (none, s)
  | .retrieve, [.var v] => (s.pool.valueOf? v, s)
  | .builtin _ .copy, [.var v] => (some (.var v), s)
  | .builtin .now op, inputs =>
    (if ctx.settings.constantFold then (op.foldOperands inputs).map .lit else none, s)
  | .builtin .later op, inputs =>
    if ctx.settings.constantFold && ctx.settings.sharedConstants then
      match (inputs.mapM s.pool.literal?).bind op.foldOperands with
      | some l => constantFor l s
      | none => (none, s)
    else (none, s)
  | _, _ => (none, s)

/-- The variable never changes once it has a value. -/
def isFixed (aliases : AliasMap) (v : Var) : Bool := v.isGlobalConst || aliases.isStable v

/-- The operand may be the representative of an output. -/
def accepts (aliases : AliasMap) (out : Var) (rep : Operand) : Bool :=
  aliases.isStable out && match rep with
    | .var r => r.ty = out.ty && isFixed aliases r
    | .lit l => (Operand.lit l).compatibleWith out

/-- Marks the output of an instruction that may be deleted as redundant, if its
value is that of another variable. -/
def markRedundant (block : Nat) (out : Var) (rep : Operand) (s : State) : State :=
  match rep with
  | .var r => { s with marks := s.marks.add block out (s.pool.valueOf? r) }
  | .lit _ => s

/-- **The value of a signature was computed into a variable.** If an operand
with this value is known, it becomes the representative of the variable;
otherwise the variable is the operand to know. -/
def bindOutput (ctx : Context) (block : Nat) (removable : Bool) (sig : Signature) (out : Var)
    (s : State) : State :=
  let (resolved, s) := resolve ctx sig s
  match resolved.or (s.facts.lookup ctx.aliases ctx.writes sig) with
  | some rep =>
    if rep.same (.var out) || !accepts ctx.aliases out rep then s
    else
      let s := s.emit (.equated out rep)
      let s := if removable && out.definition ≠ .outArg then markRedundant block out rep s else s
      { s with facts := s.facts.setCanonical out rep }
  | none =>
    if ctx.aliases.isStable out then
      { s with facts := (s.facts.record ctx.aliases sig (.var out)).2 }
    else s

/-- The operand can be kept as a value that a later read gives. -/
def isUsable (aliases : AliasMap) : Operand → Bool
  | .var v => isFixed aliases v
  | .lit .null => false
  | .lit _ => true

/-- **The value of a signature is known to be that of an operand**, which is
entered unless a value is known already. -/
def bindKnown (ctx : Context) (sig : Signature) (src : Operand) (s : State) : State :=
  let rep := s.facts.canonicalOperand src
  if isUsable ctx.aliases rep && (s.facts.lookup ctx.aliases ctx.writes sig).isNone then
    { s with facts := (s.facts.record ctx.aliases sig rep).2 }
  else s

/-- Takes note of one value that an instruction makes available. -/
def bind (ctx : Context) (block : Nat) (removable : Bool) (s : State)
    (value : Signature × Binding) : State :=
  let sig := s.facts.canonicalize value.1
  match value.2 with
  | .output out => bindOutput ctx block removable sig out s
  | .known src => bindKnown ctx sig src s

/-- Takes note of all values that an instruction makes available. -/
def numberValues (ctx : Context) (block : Nat) (i : Instruction) (s : State) : Except Fault State :=
  do
  let removable ← i.isRemovable ctx.foreign
  let values ← i.signatures ctx.foreign
  return values.foldl (bind ctx block removable) s

/-! ## Folding -/

/-- The foreign function is known to have no side effects. -/
def isPureCall (foreign : Foreign) (function : String) : Bool :=
  match foreign.lookup function with
  | .ok f => !f.sideEffects
  | .error _ => false

/-- The only output of a computation on literals that the task does itself. -/
def foldable? (foreign : Foreign) : Instruction → Option Var
  | .compute .now _ dst inputs => if inputs.all Operand.isLit then some dst else none
  | .call .now function [dst] inputs =>
    if inputs.all Operand.isLit && isPureCall foreign function then some dst else none
  | _ => none

/-- **Replaces a computation whose value is a known literal by a copy of the
literal.** Reads of the output see the literal, so the copy can go once nothing
reads it. -/
def fold (ctx : Context) (block : Nat) (i : Instruction) (s : State) : Instruction × State :=
  match foldable? ctx.foreign i with
  | none => (i, s)
  | some dst =>
    match s.facts.canonical? dst with
    | some (.lit l) =>
      let s :=
        if dst.definition ≠ .outArg then { s with marks := s.marks.add block dst none } else s
      let copy := Instruction.compute .now .copy dst [.lit l]
      if i.same copy then (i, s)
      else
        let s := s.emit (.folded i copy)
        (copy, { s with stats.instructionsFolded := s.stats.instructionsFolded + 1 })
    | _ => (i, s)

/-! ## The visit -/

/-- **Visits an instruction** of the block with the given number. -/
def visitInstruction (ctx : Context) (block : Nat) (i : Instruction) (s : State) :
    Visit Instruction :=
  match ctx.undeclared? s (i.readVars ++ i.outputs) with
  | some e => ⟨i, s, some e⟩
  | none =>
    let (i, s) := substitute i s
    match i.assigned.foldlM Congruence.define s.facts with
    | .error e => ⟨i, s, some e⟩
    | .ok facts =>
      let s := i.writes.foldl (write ctx) { s with facts }
      match numberValues ctx block i s with
      | .error e => ⟨i, s, some e⟩
      | .ok s =>
        let (i, s) := if ctx.settings.constantFold then fold ctx block i s else (i, s)
        ⟨i, { s with facts := i.closes.foldl Congruence.close s.facts }, none⟩

end ValueFlow.Numbering

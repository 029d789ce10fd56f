import ValueFlow.Numbering.State

/-!
# Cleaning up behind the walk

The walk marks instructions whose outputs equal something that is known already.
Such an instruction is deleted once nothing reads its outputs any more. One
deletion can make another one possible, so the tree is swept until a sweep
deletes nothing. A marked instruction that has to stay although its output is
known to hold a literal becomes a store of this literal, and declarations of
deleted outputs are dropped.

Marks are given by block numbers, which the walk deals out in the order in which
it enters the blocks. A sweep counts the blocks anew, and so does the cleanup
that stores literals: both are given the number of the block that is entered
next and hand on the one behind their last block.
-/

namespace ValueFlow

/-! ## What a tree mentions -/

mutual
/-- The instructions of a block, those of inner blocks included. -/
def Block.instructions : Block → List Instruction
  | .mk _ body => body.instructions
/-- The instructions of a body. -/
def Body.instructions : Body → List Instruction
  | .done => []
  | .instr i rest => i :: rest.instructions
  | .cont c rest => c.instructions ++ rest.instructions
/-- The instructions of a continuation. -/
def Continuation.instructions : Continuation → List Instruction
  | .ifElse _ t e => t.instructions ++ e.instructions
  | .switch _ arms => arms.instructions
  | .deferred _ b => b.instructions
  | .nested b => b.instructions
/-- The instructions of the arms of a switch. -/
def Arms.instructions : Arms → List Instruction
  | .none => []
  | .default b => b.instructions
  | .case _ b rest => b.instructions ++ rest.instructions
end

mutual
/-- The names of the variables that a block reads. -/
def Block.readNames : Block → List String
  | .mk _ body => body.readNames
/-- The names of the variables that a body reads. -/
def Body.readNames : Body → List String
  | .done => []
  | .instr i rest => i.readVars.map (·.name) ++ rest.readNames
  | .cont c rest => c.readVars.map (·.name) ++ c.readNames ++ rest.readNames
/-- The names of the variables that the blocks of a continuation read. -/
def Continuation.readNames : Continuation → List String
  | .ifElse _ t e => t.readNames ++ e.readNames
  | .switch _ arms => arms.readNames
  | .deferred _ b => b.readNames
  | .nested b => b.readNames
/-- The names of the variables that the arms of a switch read. -/
def Arms.readNames : Arms → List String
  | .none => []
  | .default b => b.readNames
  | .case _ b rest => b.readNames ++ rest.readNames
end

/-- The names that a block mentions: those it reads and those its instructions
define. -/
def Block.mentions (b : Block) : List String :=
  b.readNames ++ b.instructions.flatMap fun i => i.outputs.map (·.name)

namespace Numbering

/-! ## Deleting -/

/-- What a cleanup works with. -/
structure Cleanup where
  foreign : Foreign
  marks : Marks

namespace Cleanup

/-- **The instruction is redundant**: it may be deleted, and all its outputs, at
least one, are marked in its block. -/
def isRedundant (c : Cleanup) (block : Nat) (i : Instruction) : Bool :=
  !i.outputs.isEmpty && i.outputs.all (c.marks.contains block)
    && match i.isRemovable c.foreign with
      | .ok removable => removable
      | .error _ => false

/-- The instruction is redundant and nothing reads its outputs. -/
def isDead (c : Cleanup) (reads : List String) (block : Nat) (i : Instruction) : Bool :=
  c.isRedundant block i && i.outputs.all fun o => !reads.contains o.name

mutual
/-- Deletes the dead instructions of a block, which is entered with the number
`next`. The answer also lists what was deleted, inner blocks first, and has the
number of the block that is entered next. -/
def sweepBlock (c : Cleanup) (reads : List String) (next : Nat) :
    Block → Block × List Instruction × Nat
  | .mk vars body =>
    let (body, inner, own, next) := c.sweepBody reads next (next + 1) body
    (.mk vars body, inner ++ own, next)
/-- Deletes the dead instructions of a body in the block with number `block`.
What was deleted inside comes apart from what was deleted in the body itself. -/
def sweepBody (c : Cleanup) (reads : List String) (block next : Nat) :
    Body → Body × List Instruction × List Instruction × Nat
  | .done => (.done, [], [], next)
  | .instr i rest =>
    let (rest, inner, own, next) := c.sweepBody reads block next rest
    if c.isDead reads block i then (rest, inner, i :: own, next)
    else (.instr i rest, inner, own, next)
  | .cont k rest =>
    let (k, deleted, next) := c.sweepContinuation reads next k
    let (rest, inner, own, next) := c.sweepBody reads block next rest
    (.cont k rest, deleted ++ inner, own, next)
/-- Deletes the dead instructions of the blocks of a continuation. -/
def sweepContinuation (c : Cleanup) (reads : List String) (next : Nat) :
    Continuation → Continuation × List Instruction × Nat
  | .ifElse condition t e =>
    let (t, first, next) := c.sweepBlock reads next t
    let (e, second, next) := c.sweepBlock reads next e
    (.ifElse condition t e, first ++ second, next)
  | .switch value arms =>
    let (arms, deleted, next) := c.sweepArms reads next arms
    (.switch value arms, deleted, next)
  | .deferred trigger b =>
    let (b, deleted, next) := c.sweepBlock reads next b
    (.deferred trigger b, deleted, next)
  | .nested b =>
    let (b, deleted, next) := c.sweepBlock reads next b
    (.nested b, deleted, next)
/-- Deletes the dead instructions of the arms of a switch. -/
def sweepArms (c : Cleanup) (reads : List String) (next : Nat) :
    Arms → Arms × List Instruction × Nat
  | .none => (.none, [], next)
  | .default b =>
    let (b, deleted, next) := c.sweepBlock reads next b
    (.default b, deleted, next)
  | .case label b rest =>
    let (b, first, next) := c.sweepBlock reads next b
    let (rest, others, next) := c.sweepArms reads next rest
    (.case label b rest, first ++ others, next)
end

/-- Sweeps until a sweep deletes nothing; `outputs` are read by the caller. Each
sweep but the last deletes an instruction, which bounds their number. -/
def sweepAll (c : Cleanup) (outputs : List String) : Nat → Block → Block × List Instruction
  | 0, b => (b, [])
  | n + 1, b =>
    let (b', deleted, _) := c.sweepBlock (outputs ++ b.readNames) 0 b
    if deleted.isEmpty then (b', [])
    else
      let (b', more) := c.sweepAll outputs n b'
      (b', deleted ++ more)

/-! ## Storing constants -/

/-- The store that takes the place of a redundant instruction whose only output
is a future known to hold a literal. -/
def storeFor? (c : Cleanup) (block : Nat) (i : Instruction) : Option Instruction :=
  if c.isRedundant block i then
    match i.outputs with
    | [dst] => if dst.ty.isFuture then (c.marks.literal? block dst).map (.storeScalar dst) else none
    | _ => none
  else none

mutual
/-- Turns redundant instructions into stores of their literals and counts them,
in a block that is entered with the number `next`. The last part of the answer
is the number of the block that is entered next. -/
def storeBlock (c : Cleanup) (next : Nat) : Block → Block × Nat × Nat
  | .mk vars body =>
    let (body, count, next) := c.storeBody next (next + 1) body
    (.mk vars body, count, next)
/-- Turns redundant instructions into stores in a body. -/
def storeBody (c : Cleanup) (block next : Nat) : Body → Body × Nat × Nat
  | .done => (.done, 0, next)
  | .instr i rest =>
    let (rest, count, next) := c.storeBody block next rest
    match c.storeFor? block i with
    | some store => (.instr store rest, count + 1, next)
    | none => (.instr i rest, count, next)
  | .cont k rest =>
    let (k, inner, next) := c.storeContinuation next k
    let (rest, count, next) := c.storeBody block next rest
    (.cont k rest, inner + count, next)
/-- Turns redundant instructions into stores in the blocks of a continuation. -/
def storeContinuation (c : Cleanup) (next : Nat) : Continuation → Continuation × Nat × Nat
  | .ifElse condition t e =>
    let (t, first, next) := c.storeBlock next t
    let (e, second, next) := c.storeBlock next e
    (.ifElse condition t e, first + second, next)
  | .switch value arms =>
    let (arms, count, next) := c.storeArms next arms
    (.switch value arms, count, next)
  | .deferred trigger b =>
    let (b, count, next) := c.storeBlock next b
    (.deferred trigger b, count, next)
  | .nested b =>
    let (b, count, next) := c.storeBlock next b
    (.nested b, count, next)
/-- Turns redundant instructions into stores in the arms of a switch. -/
def storeArms (c : Cleanup) (next : Nat) : Arms → Arms × Nat × Nat
  | .none => (.none, 0, next)
  | .default b =>
    let (b, count, next) := c.storeBlock next b
    (.default b, count, next)
  | .case label b rest =>
    let (b, first, next) := c.storeBlock next b
    let (rest, others, next) := c.storeArms next rest
    (.case label b rest, first + others, next)
end

end Cleanup

/-! ## Dropping declarations -/

mutual
/-- Drops the declarations of deleted variables that the declaring block does
not mention any more. -/
def dropDeclarations (deleted : List String) : Block → Block
  | .mk vars body =>
    let mentioned := (Block.mk vars body).mentions
    .mk (vars.filter fun v => !deleted.contains v.name || mentioned.contains v.name)
      (dropInBody deleted body)
/-- Drops declarations in a body. -/
def dropInBody (deleted : List String) : Body → Body
  | .done => .done
  | .instr i rest => .instr i (dropInBody deleted rest)
  | .cont c rest => .cont (dropInContinuation deleted c) (dropInBody deleted rest)
/-- Drops declarations in the blocks of a continuation. -/
def dropInContinuation (deleted : List String) : Continuation → Continuation
  | .ifElse condition t e =>
    .ifElse condition (dropDeclarations deleted t) (dropDeclarations deleted e)
  | .switch value arms => .switch value (dropInArms deleted arms)
  | .deferred trigger b => .deferred trigger (dropDeclarations deleted b)
  | .nested b => .nested (dropDeclarations deleted b)
/-- Drops declarations in the arms of a switch. -/
def dropInArms (deleted : List String) : Arms → Arms
  | .none => .none
  | .default b => .default (dropDeclarations deleted b)
  | .case label b rest => .case label (dropDeclarations deleted b) (dropInArms deleted rest)
end

/-- **Cleans up a walked function.** Nothing is done if nothing was marked. -/
def removeRedundant (ctx : Context) (f : Function) (s : State) : Function × State :=
  if s.marks.entries.isEmpty then (f, s)
  else
    let c : Cleanup := ⟨ctx.foreign, s.marks⟩
    let (b, deleted) :=
      c.sweepAll (f.outputs.map (·.name)) (f.block.instructions.length + 1) f.block
    let (b, stored, _) := c.storeBlock 0 b
    let names := deleted.flatMap fun i => i.outputs.map (·.name)
    ({ f with block := dropDeclarations names b },
      { s with
        events := s.events ++ (deleted.map Event.removed).toArray
        stats.instructionsRemoved := s.stats.instructionsRemoved + deleted.length
        stats.instructionsFolded := s.stats.instructionsFolded + stored })

end Numbering

end ValueFlow

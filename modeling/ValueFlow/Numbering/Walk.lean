import ValueFlow.Numbering.Instruction

/-!
# The walk over a function

Blocks are numbered in the order in which the walk enters them. The block of a
continuation is walked in a scope of its own, and the scope is left by the rule
for the way the block runs.
-/

namespace ValueFlow.Numbering

/-! ## Entering and leaving -/

/-- The variable is known to be closed, itself or through its representative. -/
def isAvailable (facts : Congruence) (v : Var) : Bool :=
  facts.isClosed v || match facts.canonical? v with
    | some (.var rep) => facts.isClosed rep
    | some (.lit _) => true
    | none => false

/-- Drops the variables that need not be waited for. -/
def pruneWaits (ctx : Context) (vars : List Var) (s : State) : List Var × State :=
  let (pruned, kept) := vars.partition (isAvailable s.facts)
  let s := pruned.foldl (fun s v => s.emit (.notWaiting ctx.function v)) s
  (kept, { s with stats.waitVarsPruned := s.stats.waitVarsPruned + pruned.length })

/-- **Enters the scope of a deferred block.** The variables waited for are
closed in it, the index of a range is assigned in it, and the member of an array
is declared in it. -/
def enterDeferred (ctx : Context) (trigger : Trigger) (s : State) : Visit Trigger :=
  match trigger with
  | .wait vars target mode =>
    let (vars, s) := if ctx.settings.pruneWaits then pruneWaits ctx vars s else (vars, s)
    let s := s.push .deferred
    ⟨.wait vars target mode, { s with facts := vars.foldl Congruence.close s.facts }, none⟩
  | .range index start stop step =>
    let (start, s) := substituteOperand start s
    let (stop, s) := substituteOperand stop s
    let (step, s) := substituteOperand step s
    let s := s.push .deferred
    match (s.facts.declare index).define index with
    | .error e => ⟨.range index start stop step, s, some e⟩
    | .ok facts =>
      ⟨.range index start stop step, { s with facts := facts.close index }, none⟩
  | .foreach array member =>
    let s := s.push .deferred
    ⟨.foreach array member, { s with facts := s.facts.declare member }, none⟩

/-- Leaves the scope of a walked block; `merge` says what becomes of its facts. -/
def leave (merge : Congruence → Scope → Congruence) (v : Visit Block) : Visit Block :=
  v.andThen id fun b s =>
    match s.facts.pop with
    | .error e => ⟨b, s, some e⟩
    | .ok (child, facts) => ⟨b, { s with facts := merge facts child }, none⟩

/-- Leaves the scope of an arm, which is kept until all arms are walked. -/
def leaveArm (v : Visit Block) : Visit (Block × Scope) :=
  v.andThen (·, .new .branch) fun b s =>
    match s.facts.pop with
    | .error e => ⟨(b, .new .branch), s, some e⟩
    | .ok (arm, facts) => ⟨(b, arm), { s with facts }, none⟩

/-- Combines the scopes of all arms of a conditional. -/
def mergeArms (ctx : Context) (arms : List Scope) (s : State) : State :=
  let (kept, facts) := s.facts.mergeBranches ctx.aliases ctx.settings.branchMerge arms
  { s with facts, stats.factsRetained := s.stats.factsRetained + kept }

/-! ## The walk -/

mutual
/-- **Walks a block** in the innermost scope. -/
def visitBlock (ctx : Context) : Block → State → Visit Block
  | .mk vars body, s =>
    let block := s.nextBlock
    let s := { s with nextBlock := block + 1, facts := vars.foldl Congruence.declare s.facts }
    (visitBody ctx block body s).map (.mk vars)
/-- Walks the body of the block with the given number. -/
def visitBody (ctx : Context) (block : Nat) : Body → State → Visit Body
  | .done, s => ⟨.done, s, none⟩
  | .instr i rest, s =>
    (visitInstruction ctx block i s).andThen (.instr · rest) fun i s =>
      (visitBody ctx block rest s).map (.instr i)
  | .cont c rest, s =>
    (visitContinuation ctx c s).andThen (.cont · rest) fun c s =>
      (visitBody ctx block rest s).map (.cont c)
/-- Walks a continuation. -/
def visitContinuation (ctx : Context) (c : Continuation) (s : State) : Visit Continuation :=
  match ctx.undeclared? s c.readVars with
  | some e => ⟨c, s, some e⟩
  | none =>
    let s := s.emit (.entering c.kind s.facts.depth)
    match c with
    | .ifElse condition t e =>
      let (condition, s) := substituteOperand condition s
      (leaveArm (visitBlock ctx t (s.push .branch))).andThen
        (fun arm => .ifElse condition arm.1 e) fun first s =>
      (leaveArm (visitBlock ctx e (s.push .branch))).andThen
        (fun arm => .ifElse condition first.1 arm.1) fun second s =>
      ⟨.ifElse condition first.1 second.1, mergeArms ctx [first.2, second.2] s, none⟩
    | .switch value arms =>
      let (value, s) := substituteOperand value s
      (visitArms ctx arms s).andThen (fun arms => .switch value arms.1) fun arms s =>
      ⟨.switch value arms.1, mergeArms ctx arms.2 s, none⟩
    | .deferred trigger b =>
      (enterDeferred ctx trigger s).andThen (.deferred · b) fun trigger s =>
      (leave .mergeDeferred (visitBlock ctx b s)).map (.deferred trigger)
    | .nested b => (leave .mergeNested (visitBlock ctx b (s.push .nested))).map .nested
/-- Walks the arms of a switch and gives their scopes. If there is no default,
it may be that no arm runs, so there is one more scope without facts. -/
def visitArms (ctx : Context) : Arms → State → Visit (Arms × List Scope)
  | .none, s => ⟨(.none, [.new .branch]), s, none⟩
  | .default b, s =>
    (leaveArm (visitBlock ctx b (s.push .branch))).map fun arm => (.default arm.1, [arm.2])
  | .case label b rest, s =>
    (leaveArm (visitBlock ctx b (s.push .branch))).andThen
      (fun arm => (.case label arm.1 rest, [arm.2])) fun arm s =>
    (visitArms ctx rest s).map fun arms => (.case label arm.1 arms.1, arm.2 :: arms.2)
end

/-- Takes note of an input of the function: it is declared and assigned, and
closed if it is a value. -/
def enterInput (facts : Congruence) (v : Var) : Except Fault Congruence := do
  let facts ← (facts.declare v).define v
  return if v.isLocalValue then facts.close v else facts

/-- **Walks a function.** -/
def visitFunction (ctx : Context) (f : Function) (s : State) : Visit Function :=
  match f.inputs.foldlM enterInput s.facts with
  | .error e => ⟨f, s, some e⟩
  | .ok facts =>
    let s := { s with facts := f.outputs.foldl Congruence.declare facts }
    (visitBlock ctx f.block s).map fun b => { f with block := b }

end ValueFlow.Numbering

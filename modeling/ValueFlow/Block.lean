import ValueFlow.Instruction

/-!
# Blocks

A function is a tree of blocks. A block declares variables and has a body, a
sequence of instructions and continuations; a continuation owns the blocks that
it runs. Conditionals and nested blocks run in order with the rest of the body.
Waits and loops are *deferred*: their block runs at some later time, next to the
rest.

The tree is given by mutually inductive types without nesting in lists, so
functions on it are plain structural recursions: one function for blocks, one
for bodies, one for continuations and one for the arms of a switch.
-/

namespace ValueFlow

/-- Where a task runs. -/
inductive Context where
  | control
  | worker (name : String)
deriving DecidableEq

/-- The execution target of a function or a deferred block. -/
structure Target where
  context : Context
  /-- The task is bound to a particular rank. -/
  targeted : Bool
deriving DecidableEq

namespace Target

/-- The control context, not bound to a rank. -/
def control : Target := ⟨.control, false⟩

/-- A worker context, not bound to a rank. -/
def worker (name : String) : Target := ⟨.worker name, false⟩

/-- The target in listings. -/
def text (t : Target) : String :=
  (match t.context with
    | .control => "control"
    | .worker name => "worker:" ++ name) ++ (if t.targeted then " targeted" else "")

end Target

/-- How a wait is carried out. -/
inductive WaitMode where
  /-- Only wait, then go on in the present context. -/
  | waitOnly
  /-- Send a new task to the target. -/
  | dispatch
deriving DecidableEq

/-- **What a deferred block waits for or ranges over.** -/
inductive Trigger where
  /-- All of the variables are closed. -/
  | wait (vars : List Var) (target : Target) (mode : WaitMode)
  /-- Once for each integer of a range. -/
  | range (index : Var) (start stop step : Operand)
  /-- Once for each element of an array, to which `member` is bound. -/
  | foreach (array member : Var)
deriving DecidableEq

mutual
/-- Variables and the statements that they are declared for. -/
inductive Block where
  | mk (vars : List Var) (body : Body)
deriving DecidableEq
/-- A sequence of statements. -/
inductive Body where
  | done
  | instr (i : Instruction) (rest : Body)
  | cont (c : Continuation) (rest : Body)
deriving DecidableEq
/-- Structured control flow. -/
inductive Continuation where
  | ifElse (condition : Operand) (thenBlock elseBlock : Block)
  | switch (value : Operand) (arms : Arms)
  /-- A block that runs at some later time. -/
  | deferred (trigger : Trigger) (block : Block)
  /-- A block that runs in order. -/
  | nested (block : Block)
deriving DecidableEq
/-- The arms of a switch: cases, and at the end a default or none. -/
inductive Arms where
  | none
  | default (block : Block)
  | case (label : Int64) (block : Block) (rest : Arms)
deriving DecidableEq
end

namespace Trigger

/-- The operands that are read in the surrounding block. -/
def reads : Trigger → List Operand
  | wait vars _ _ => vars.map .var
  | range _ start stop step => [start, stop, step]
  | foreach array _ => [.var array]

/-- The alias facts that the trigger creates: the member is an element of its
array. -/
def aliases : Trigger → List Alias
  | foreach array member => (Alias.ofArray? array .bind member).toList
  | _ => []

/-- The word for the kind of trigger in messages. -/
def kind : Trigger → String
  | wait .. => "wait"
  | range .. => "range"
  | foreach .. => "foreach"

/-- The trigger with every variable replaced. -/
def mapVars (f : Var → Var) : Trigger → Trigger
  | wait vars target mode => wait (vars.map f) target mode
  | range index start stop step =>
    range (f index) (start.mapVar f) (stop.mapVar f) (step.mapVar f)
  | foreach array member => foreach (f array) (f member)

end Trigger

namespace Body

/-- The number of statements. -/
def length : Body → Nat
  | done => 0
  | instr _ rest => rest.length + 1
  | cont _ rest => rest.length + 1

/-- There are no statements. -/
def isEmpty : Body → Bool
  | done => true
  | _ => false

/-- One body after the other. -/
def append : Body → Body → Body
  | done, b => b
  | instr i rest, b => instr i (rest.append b)
  | cont c rest, b => cont c (rest.append b)

end Body

namespace Block

/-- The declared variables. -/
def vars : Block → List Var
  | mk vars _ => vars

/-- The statements. -/
def body : Block → Body
  | mk _ body => body

/-- The block without variables and statements. -/
def empty : Block := mk [] .done

instance : Inhabited Block := ⟨empty⟩

/-- There are no statements. -/
def isEmpty (b : Block) : Bool := b.body.isEmpty

/-- Declares a variable, whose name must be new to the block. -/
def declare (b : Block) (v : Var) : Except Fault Block :=
  if b.vars.any (·.name = v.name) then .error (.declaredTwice v.name)
  else .ok (mk (b.vars ++ [v]) b.body)

/-- Adds an instruction at the end. -/
def addInstruction (b : Block) (i : Instruction) : Block :=
  mk b.vars (b.body.append (.instr i .done))

/-- Adds a continuation at the end. -/
def addContinuation (b : Block) (c : Continuation) : Block :=
  mk b.vars (b.body.append (.cont c .done))

end Block

namespace Arms

/-- The blocks of the arms, in order. -/
def blocks : Arms → List Block
  | none => []
  | default b => [b]
  | case _ b rest => b :: rest.blocks

/-- The arms with given labels and blocks, and a default or none. -/
def ofCases : List (Int64 × Block) → Option Block → Arms
  | [], .none => none
  | [], some b => default b
  | (label, b) :: rest, d => case label b (ofCases rest d)

/-- The labels with their blocks. -/
def cases : Arms → List (Int64 × Block)
  | case label b rest => (label, b) :: rest.cases
  | _ => []

/-- The default, if there is one. -/
def default? : Arms → Option Block
  | none => .none
  | default b => some b
  | case _ _ rest => rest.default?

/-- The block chosen by a value: that of the first case with this label, or the
default. -/
def select? (n : Int64) : Arms → Option Block
  | none => .none
  | default b => some b
  | case label b rest => if label = n then some b else rest.select? n

end Arms

namespace Continuation

/-- The operands that govern the continuation, read in the surrounding block. -/
def reads : Continuation → List Operand
  | ifElse condition _ _ => [condition]
  | switch value _ => [value]
  | deferred trigger _ => trigger.reads
  | nested _ => []

/-- The variables among them. -/
def readVars (c : Continuation) : List Var := c.reads.filterMap Operand.var?

/-- The alias facts that the continuation creates. -/
def aliases : Continuation → List Alias
  | deferred trigger _ => trigger.aliases
  | _ => []

/-- The blocks that the continuation owns, in order. -/
def blocks : Continuation → List Block
  | ifElse _ t e => [t, e]
  | switch _ arms => arms.blocks
  | deferred _ b => [b]
  | nested b => [b]

/-- The block runs at some later time. -/
def isDeferred : Continuation → Bool
  | deferred .. => true
  | _ => false

/-- At most one of the blocks runs, in order. -/
def isConditional : Continuation → Bool
  | ifElse .. | switch .. => true
  | _ => false

/-- The word for the kind of continuation in messages. -/
def kind : Continuation → String
  | ifElse .. => "if"
  | switch .. => "switch"
  | deferred trigger _ => trigger.kind
  | nested _ => "block"

/-- The continuation with other blocks, given in order; a block that is not
given stays. -/
def withBlocks (c : Continuation) (bs : List Block) : Continuation :=
  match c with
  | ifElse condition t e => ifElse condition (bs.head?.getD t) ((bs.drop 1).head?.getD e)
  | switch value arms => switch value (go arms bs)
  | deferred trigger b => deferred trigger (bs.head?.getD b)
  | nested b => nested (bs.head?.getD b)
where
  /-- The arms with other blocks. -/
  go : Arms → List Block → Arms
    | .none, _ => .none
    | .default b, bs => .default (bs.head?.getD b)
    | .case label b rest, bs => .case label (bs.head?.getD b) (go rest (bs.drop 1))

end Continuation

/-! ## Replacing variables throughout a tree -/

mutual
/-- The block with every variable replaced. -/
def Block.mapVars (f : Var → Var) : Block → Block
  | .mk vars body => .mk (vars.map f) (body.mapVars f)
/-- The body with every variable replaced. -/
def Body.mapVars (f : Var → Var) : Body → Body
  | .done => .done
  | .instr i rest => .instr (i.mapVars f) (rest.mapVars f)
  | .cont c rest => .cont (c.mapVars f) (rest.mapVars f)
/-- The continuation with every variable replaced. -/
def Continuation.mapVars (f : Var → Var) : Continuation → Continuation
  | .ifElse condition t e => .ifElse (condition.mapVar f) (t.mapVars f) (e.mapVars f)
  | .switch value arms => .switch (value.mapVar f) (arms.mapVars f)
  | .deferred trigger b => .deferred (trigger.mapVars f) (b.mapVars f)
  | .nested b => .nested (b.mapVars f)
/-- The arms with every variable replaced. -/
def Arms.mapVars (f : Var → Var) : Arms → Arms
  | .none => .none
  | .default b => .default (b.mapVars f)
  | .case label b rest => .case label (b.mapVars f) (rest.mapVars f)
end

end ValueFlow

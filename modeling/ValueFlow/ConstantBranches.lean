import ValueFlow.Program

/-!
# Constant branches

A conditional on a literal always takes the same arm. `Block.foldBranches`
replaces it by that arm as a nested block, throughout the tree and also inside
the arms that stay; `Block.branchesFolded` counts the replacements. An `if`
decides on a truth value and a `switch` on an integer; a conditional on any
other operand is left alone. A switch without a matching arm becomes an empty
nested block.
-/

namespace ValueFlow

mutual
/-- **Replaces the conditionals on literals in a block.** -/
def Block.foldBranches : Block → Block
  | .mk vars body => .mk vars body.foldBranches
/-- Replaces the conditionals on literals in a body. -/
def Body.foldBranches : Body → Body
  | .done => .done
  | .instr i rest => .instr i rest.foldBranches
  | .cont c rest => .cont c.foldBranches rest.foldBranches
/-- Replaces a conditional on a literal, and those inside the blocks that stay. -/
def Continuation.foldBranches : Continuation → Continuation
  | .ifElse condition t e =>
    match condition with
    | .lit (.bool b) => .nested (if b then t.foldBranches else e.foldBranches)
    | condition => .ifElse condition t.foldBranches e.foldBranches
  | .switch value arms =>
    match value with
    | .lit (.int n) => .nested (arms.foldTaken n)
    | value => .switch value arms.foldBranches
  | .deferred trigger b => .deferred trigger b.foldBranches
  | .nested b => .nested b.foldBranches
/-- Replaces the conditionals on literals in the arms of a switch. -/
def Arms.foldBranches : Arms → Arms
  | .none => .none
  | .default b => .default b.foldBranches
  | .case label b rest => .case label b.foldBranches rest.foldBranches
/-- The arm that an integer chooses, with the conditionals on literals inside it
replaced. -/
def Arms.foldTaken (n : Int64) : Arms → Block
  | .none => .empty
  | .default b => b.foldBranches
  | .case label b rest => if label = n then b.foldBranches else rest.foldTaken n
end

mutual
/-- **How many conditionals `foldBranches` replaces.** Those in an arm that is
dropped do not count. -/
def Block.branchesFolded : Block → Nat
  | .mk _ body => body.branchesFolded
/-- How many conditionals are replaced in a body. -/
def Body.branchesFolded : Body → Nat
  | .done => 0
  | .instr _ rest => rest.branchesFolded
  | .cont c rest => c.branchesFolded + rest.branchesFolded
/-- How many conditionals are replaced in a continuation, itself included. -/
def Continuation.branchesFolded : Continuation → Nat
  | .ifElse condition t e =>
    match condition with
    | .lit (.bool b) => (if b then t.branchesFolded else e.branchesFolded) + 1
    | _ => t.branchesFolded + e.branchesFolded
  | .switch value arms =>
    match value with
    | .lit (.int n) => arms.foldedInTaken n + 1
    | _ => arms.branchesFolded
  | .deferred _ b => b.branchesFolded
  | .nested b => b.branchesFolded
/-- How many conditionals are replaced in the arms of a switch. -/
def Arms.branchesFolded : Arms → Nat
  | .none => 0
  | .default b => b.branchesFolded
  | .case _ b rest => b.branchesFolded + rest.branchesFolded
/-- How many conditionals are replaced in the arm that an integer chooses. -/
def Arms.foldedInTaken (n : Int64) : Arms → Nat
  | .none => 0
  | .default b => b.branchesFolded
  | .case label b rest => if label = n then b.branchesFolded else rest.foldedInTaken n
end

/-- Replaces the conditionals on literals in a function. -/
def Function.foldBranches (f : Function) : Function := { f with block := f.block.foldBranches }

end ValueFlow

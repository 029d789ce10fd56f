import ValueFlow.Signature
import ValueFlow.Table

/-!
# Congruence facts

While a function is walked, the facts known about its values are kept in a stack
of scopes, one for each block that is open. A fact entered in a scope holds
there and in the scopes inside it. When a scope is left, its facts are kept,
dropped or combined according to how its block runs:

* a nested block runs once, in order: everything that is still in scope stays
  (`mergeNested`);
* of the arms of a conditional exactly one runs: what all arms agree on stays,
  and the writes of every arm count (`mergeBranches`);
* a deferred block runs at some later time, next to the rest: nothing it
  computed is known, and what it writes is unreliable from now on
  (`mergeDeferred`).

Four kinds of facts are kept: the *representative* of a variable, the operand
that holds the value of a *signature*, which futures are *closed*, and which
variables are *defined*. A value read out of storage ends with a write to
overlapping storage (`invalidate`); the scopes outside are not changed by that,
the innermost scope hides what they say instead.
-/

namespace ValueFlow

instance : Keyed Var String := ⟨Var.name⟩

instance : Keyed Signature (Opcode × List (String ⊕ Literal) × Bool) := ⟨Signature.key⟩

/-- How the block of a scope runs, seen from the scope around it. -/
inductive ScopeKind where
  /-- The function itself. -/
  | root
  /-- One arm of a conditional. -/
  | branch
  /-- At some later time, next to the rest. -/
  | deferred
  /-- Exactly once, in order. -/
  | nested
deriving DecidableEq

/-- The facts of one scope. -/
structure Scope where
  kind : ScopeKind
  /-- The variables declared here, by name. -/
  declared : List String
  /-- The representatives of variables. -/
  canonical : Table Var Operand
  /-- The operands that hold the values of signatures; none hides what an outer scope says. -/
  values : Table Signature (Option Operand)
  /-- The variables known to be closed. -/
  closed : Table Var Unit
  /-- The variables assigned here, by name. -/
  defined : List String
  /-- The locations written in order. -/
  invalidated : List Location
  /-- The locations that may be written at any time from now on. -/
  poisoned : List Location

namespace Scope

/-- A scope without facts. -/
def new (kind : ScopeKind) : Scope := ⟨kind, [], .empty, .empty, .empty, [], [], []⟩

/-- The assigned variables that are not declared here, hence live on when the
scope is left. -/
def outliving (s : Scope) : List String := s.defined.filter fun n => !s.declared.contains n

end Scope

/-- **The facts known at one point of a function.** -/
structure Congruence where
  /-- The innermost scope. -/
  top : Scope
  /-- The scopes around it, from the inside out. -/
  outer : List Scope

namespace Congruence

/-- No facts, in the scope of the function itself. -/
def new : Congruence := ⟨.new .root, []⟩

/-- All scopes, from the inside out. -/
def scopes (c : Congruence) : List Scope := c.top :: c.outer

/-- The number of scopes. -/
def depth (c : Congruence) : Nat := c.outer.length + 1

/-- Enters a scope. -/
def push (c : Congruence) (kind : ScopeKind) : Congruence := ⟨.new kind, c.top :: c.outer⟩

/-- Leaves the innermost scope, which must not be that of the function. -/
def pop (c : Congruence) : Except Fault (Scope × Congruence) :=
  match c.outer with
  | [] => .error .unbalancedScopes
  | parent :: rest => .ok (c.top, ⟨parent, rest⟩)

/-! ## Declarations and assignments -/

/-- Declares a variable in the innermost scope. -/
def declare (c : Congruence) (v : Var) : Congruence :=
  { c with top.declared := v.name :: c.top.declared }

/-- **The variable may be used here**: it is a shared constant or declared in an
open scope. -/
def isDeclared (c : Congruence) (v : Var) : Bool :=
  v.isGlobalConst || c.scopes.any (·.declared.contains v.name)

/-- The operand may be used here. -/
def isVisible (c : Congruence) : Operand → Bool
  | .var v => c.isDeclared v
  | .lit _ => true

/-- Assigns a variable, which must not have been assigned before. -/
def define (c : Congruence) (v : Var) : Except Fault Congruence :=
  if c.scopes.any (·.defined.contains v.name) then .error (.assignedTwice v.name)
  else .ok { c with top.defined := v.name :: c.top.defined }

/-! ## Closed variables -/

/-- Notes that a variable is closed. -/
def close (c : Congruence) (v : Var) : Congruence :=
  { c with top.closed := c.top.closed.insert v () }

/-- The variable is known to be closed. -/
def isClosed (c : Congruence) (v : Var) : Bool :=
  v.isGlobalConst || c.scopes.any (·.closed.contains v)

/-! ## Representatives -/

/-- The representative entered for a variable in the innermost scope that has
one. -/
def representative? (c : Congruence) (v : Var) : Option Operand :=
  c.scopes.findSome? (·.canonical.get? v)

/-- Goes on from a representative to its own one, a bounded number of times. -/
def follow (c : Congruence) : Nat → Operand → Operand
  | 0, rep => rep
  | n + 1, rep =>
    match rep.var?.bind c.representative? with
    | some next => if next.same rep then rep else c.follow n next
    | none => rep

/-- **The canonical representative of a variable**, if it has one. -/
def canonical? (c : Congruence) (v : Var) : Option Operand :=
  (c.representative? v).map (c.follow c.depth)

/-- The canonical representative of an operand, or the operand itself. -/
def canonicalOperand (c : Congruence) (a : Operand) : Operand :=
  (a.var?.bind c.canonical?).getD a

/-- Enters a representative of a variable. -/
def setCanonical (c : Congruence) (v : Var) (rep : Operand) : Congruence :=
  { c with top.canonical := c.top.canonical.insert v rep }

/-- The signature in terms of canonical inputs. -/
def canonicalize (c : Congruence) (s : Signature) : Signature :=
  s.mapInputs c.canonicalOperand

/-! ## Values of signatures -/

/-- The location may be written at any time. -/
def isPoisoned (c : Congruence) (l : Location) : Bool :=
  c.scopes.any fun s => s.poisoned.any (·.overlaps l)

/-- The signature reads storage that may be written at any time. -/
def readsPoisoned (c : Congruence) (aliases : AliasMap) (s : Signature) : Bool :=
  (s.location? aliases).any c.isPoisoned

/-- What the innermost scope that knows the signature says, and whether a
deferred block lies between that scope and the innermost one. -/
def find? (s : Signature) : Bool → List Scope → Option (Option Operand × Bool)
  | _, [] => none
  | crossed, scope :: rest =>
    match scope.values.get? s with
    | some entry => some (entry, crossed)
    | none => find? s (crossed || scope.kind = .deferred) rest

/-- **The operand known to hold the value of a signature.**

A value read out of storage is not known if the storage may be written at any
time. If it was entered outside of a deferred block that is open, it is not
known either if anything in the function writes the storage, since that write
may come before the block runs. -/
def lookup (c : Congruence) (aliases : AliasMap) (functionWrites : List Location) (s : Signature) :
    Option Operand :=
  if c.readsPoisoned aliases s then none
  else match find? s false c.scopes with
    | none => none
    | some (entry, crossed) =>
      if crossed && (s.location? aliases).any fun l => functionWrites.any (·.overlaps l) then none
      else entry

/-- Enters the operand that holds the value of a signature. Nothing is entered
for storage that may be written at any time; the answer tells whether the entry
was made. -/
def record (c : Congruence) (aliases : AliasMap) (s : Signature) (rep : Operand) :
    Bool × Congruence :=
  if c.readsPoisoned aliases s then (false, c)
  else (true, { c with top.values := c.top.values.insert s (some rep) })

/-- The signature reads storage that overlaps a location. -/
def reads (aliases : AliasMap) (l : Location) (s : Signature) : Bool :=
  s.isRetrieve && (s.location? aliases).any (·.overlaps l)

/-- The signatures with a known value that read storage overlapping a location,
scope by scope from the outside in. -/
def affected (c : Congruence) (aliases : AliasMap) (l : Location) : List Signature :=
  c.scopes.reverse.flatMap fun scope =>
    (scope.values.entries.filter fun e => e.2.isSome && reads aliases l e.1).map (·.1)

/-- **A write to a location**: the values read from overlapping storage are
known no longer. The answer tells how many there were, each scope's counted on
its own. -/
def invalidate (c : Congruence) (aliases : AliasMap) (l : Location) : Nat × Congruence :=
  let doomed := c.affected aliases l
  (doomed.length,
    { c with
      top.values := c.top.values.insertAll (doomed.map (·, none))
      top.invalidated := c.top.invalidated ++ [l] })

/-! ## Leaving a scope -/

/-- The signature mentions only variables that may be used here. -/
def canName (c : Congruence) (s : Signature) : Bool := s.vars.all c.isDeclared

/-- The block of the scope ran once, in order: everything that is still in scope
stays. -/
def mergeNested (c : Congruence) (child : Scope) : Congruence :=
  let canonical := child.canonical.entries.filter fun e => c.isDeclared e.1 && c.isVisible e.2
  let values := child.values.entries.filter fun e => c.canName e.1 && e.2.all c.isVisible
  let closed := child.closed.entries.filter fun e => c.isDeclared e.1
  { c with
    top.canonical := c.top.canonical.insertAll canonical
    top.values := c.top.values.insertAll values
    top.closed := c.top.closed.insertAll closed
    top.defined := child.outliving ++ c.top.defined
    top.invalidated := c.top.invalidated ++ child.invalidated
    top.poisoned := c.top.poisoned ++ child.poisoned }

/-- The block of the scope runs at some later time: what it writes is unreliable
from now on. -/
def mergeDeferred (c : Congruence) (child : Scope) : Congruence :=
  { c with
    top.defined := child.outliving ++ c.top.defined
    top.poisoned := c.top.poisoned ++ child.invalidated ++ child.poisoned }

/-- What an arm writes and assigns, which counts whether or not the arm is the
one that runs. -/
def absorbArm (aliases : AliasMap) (c : Congruence) (arm : Scope) : Congruence :=
  let c := arm.invalidated.foldl (fun c l => (c.invalidate aliases l).2) c
  { c with
    top.poisoned := c.top.poisoned ++ arm.poisoned
    top.defined := arm.outliving ++ c.top.defined }

/-- The same operand, if there is one at all. -/
def sameOperand (a : Option Operand) (b : Operand) : Bool := a.any (·.same b)

/-- The representatives that all arms agree on and that may be used here. -/
def commonCanonical (c : Congruence) (first : Scope) (rest : List Scope) : List (Var × Operand) :=
  first.canonical.entries.filter fun e =>
    rest.all (fun arm => sameOperand (arm.canonical.get? e.1) e.2)
      && c.isDeclared e.1 && c.isVisible e.2

/-- The values of signatures that all arms agree on and that are reliable here. -/
def commonValues (c : Congruence) (aliases : AliasMap) (first : Scope) (rest : List Scope) :
    List (Signature × Operand) :=
  (first.values.entries.filterMap fun e => e.2.map (e.1, ·)).filter fun e =>
    rest.all (fun arm => sameOperand (arm.values.get? e.1).join e.2)
      && c.canName e.1 && c.isVisible e.2 && !c.readsPoisoned aliases e.1

/-- The variables that all arms close and that may be used here. -/
def commonClosed (c : Congruence) (first : Scope) (rest : List Scope) : List (Var × Unit) :=
  first.closed.entries.filter fun e => rest.all (·.closed.contains e.1) && c.isDeclared e.1

/-- **Exactly one of the arms ran.** The writes of every arm count, and, if
facts are to be kept at all, those on which all arms agree stay. The answer
tells how many these are. -/
def mergeBranches (c : Congruence) (aliases : AliasMap) (keep : Bool) (arms : List Scope) :
    Nat × Congruence :=
  let c := arms.foldl (absorbArm aliases) c
  match keep, arms with
  | true, first :: rest =>
    let canonical := c.commonCanonical first rest
    let values := c.commonValues aliases first rest
    let closed := c.commonClosed first rest
    (canonical.length + values.length + closed.length,
      { c with
        top.canonical := c.top.canonical.insertAll canonical
        top.values := c.top.values.insertAll (values.map fun e => (e.1, some e.2))
        top.closed := c.top.closed.insertAll closed })
  | _, _ => (0, c)

end Congruence

end ValueFlow

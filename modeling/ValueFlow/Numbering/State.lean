import ValueFlow.Congruence
import ValueFlow.Event

/-!
# The state of value numbering

Value numbering walks the block tree of a function in order. It carries the
facts known so far, the constants in use, the instructions found redundant, the
counters and the events; what does not change during the walk is in the
`Context`.

A walk that meets a fault stops there, and the tree stays as far as it was
transformed. `Visit` is the result of such a walk over a part of the tree.
-/

namespace ValueFlow.Numbering

/-- What is fixed while a function is walked. -/
structure Context where
  /-- The name of the function. -/
  function : String
  settings : Settings
  foreign : Foreign
  /-- The alias facts of the function. -/
  aliases : AliasMap
  /-- Every location written anywhere in the function. -/
  writes : List Location

/-- **The outputs of redundant instructions.** Names are told apart only in
overlapping scopes, so an output is given by the number of its block and its
name. A mark also says which literal a future output is known to hold, if one is
known. -/
structure Marks where
  /-- The marks, latest first. -/
  entries : List ((Nat × String) × Option Operand)

namespace Marks

/-- Marks an output in a block. -/
def add (m : Marks) (block : Nat) (out : Var) (literal : Option Operand) : Marks :=
  ⟨((block, out.name), literal) :: m.entries⟩

/-- The mark of an output in a block. -/
def get? (m : Marks) (block : Nat) (out : Var) : Option (Option Operand) :=
  (m.entries.find? (·.1 = (block, out.name))).map (·.2)

/-- The output is marked in the block. -/
def contains (m : Marks) (block : Nat) (out : Var) : Bool := (m.get? block out).isSome

/-- The literal that a marked output is known to hold. -/
def literal? (m : Marks) (block : Nat) (out : Var) : Option Operand := (m.get? block out).join

end Marks

/-- What changes while a function is walked. -/
structure State where
  facts : Congruence
  pool : Pool
  marks : Marks
  stats : Stats
  /-- The number that the next block gets. -/
  nextBlock : Nat
  /-- What happened so far, in order. -/
  events : Array Event

namespace State

/-- The state before the walk. -/
def new (globals : Constants) : State := ⟨.new, ⟨globals, .empty⟩, ⟨[]⟩, {}, 0, #[]⟩

/-- Records an event. -/
def emit (s : State) (e : Event) : State := { s with events := s.events.push e }

/-- Enters a scope. -/
def push (s : State) (kind : ScopeKind) : State := { s with facts := s.facts.push kind }

end State

/-- **What a walk over a part of the tree leaves**: the part as far as it was
transformed, the state, and the fault that stopped the walk, if one did. -/
structure Visit (α : Type) where
  tree : α
  state : State
  fault : Option Fault

namespace Visit

variable {α β : Type}

/-- The same walk with the tree transformed. -/
def map (f : α → β) (v : Visit α) : Visit β := ⟨f v.tree, v.state, v.fault⟩

/-- Goes on with the walk, unless it was stopped; then the tree around the
visited part is rebuilt. -/
def andThen (v : Visit α) (rebuild : α → β) (next : α → State → Visit β) : Visit β :=
  match v.fault with
  | some e => ⟨rebuild v.tree, v.state, some e⟩
  | none => next v.tree v.state

end Visit

end ValueFlow.Numbering

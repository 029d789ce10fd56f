import ValueFlow.Listing
import ValueFlow.Settings

/-!
# Events

What the optimiser does is recorded as a sequence of events. An event has a
level and a message; a log shows the messages of the events up to a chosen
level, in order.
-/

namespace ValueFlow

/-- How important an event is. -/
inductive Level where
  | error
  | warn
  | info
  | debug
  | trace
deriving DecidableEq

namespace Level

/-- The level as a number; more detail is a larger number. -/
def rank : Level → Nat
  | error => 1
  | warn => 2
  | info => 3
  | debug => 4
  | trace => 5

/-- The level in a log. -/
def text : Level → String
  | error => "ERROR"
  | warn => "WARN"
  | info => "INFO"
  | debug => "DEBUG"
  | trace => "TRACE"

end Level

/-- **How much a log shows**: everything up to a level, or nothing. -/
abbrev Verbosity := Option Level

/-- A log of this verbosity shows events of the level. -/
def Verbosity.shows (v : Verbosity) (l : Level) : Bool := v.any fun max => l.rank ≤ max.rank

/-- Something the optimiser did or found. -/
inductive Event where
  /-- Operands of an instruction were replaced. -/
  | substituted (i : Instruction)
  /-- A write ended what was known about some values. -/
  | invalidated (l : Location) (count : Nat)
  /-- A variable was found to equal an operand. -/
  | equated (out : Var) (rep : Operand)
  /-- An instruction was replaced by a copy of a literal. -/
  | folded (before after : Instruction)
  /-- The walk enters a continuation. -/
  | entering (kind : String) (depth : Nat)
  /-- A wait need not wait for a variable. -/
  | notWaiting (function : String) (v : Var)
  /-- An instruction was deleted. -/
  | removed (i : Instruction)
  /-- The values of a function are numbered. -/
  | numbered (function : String) (stats : Stats)
  /-- A pass added shared constants. -/
  | newConstants (pass : String) (count : Nat)
  /-- A pass changed the program. -/
  | changed (iteration : Nat) (pass : String)
  /-- All passes are done. -/
  | finished (iterations : Nat)

namespace Event

/-- The level of an event. -/
def level : Event → Level
  | substituted _ | invalidated .. | equated .. | folded .. | entering .. => .trace
  | notWaiting .. | removed _ | numbered .. | newConstants .. | changed .. => .debug
  | finished _ => .info

/-- The message of an event. -/
def message : Event → String
  | substituted i => "rewrote " ++ i.text
  | invalidated l count =>
    "write to " ++ l.text ++ " invalidated " ++ toString count ++ " values"
  | equated out rep => out.name ++ " == " ++ rep.text
  | folded before after => "folded " ++ before.text ++ " into " ++ after.text
  | entering kind depth => "entering " ++ kind ++ " at depth " ++ toString depth
  | notWaiting function v => function ++ ": no need to wait for " ++ v.name
  | removed i => "removed " ++ i.text
  | numbered function s =>
    function ++ ": removed " ++ toString s.instructionsRemoved ++ ", replaced "
      ++ toString s.operandsReplaced ++ ", folded " ++ toString s.instructionsFolded
      ++ ", pruned " ++ toString s.waitVarsPruned ++ " wait vars"
  | newConstants pass count => pass ++ ": " ++ toString count ++ " new global constants"
  | changed iteration pass =>
    "iteration " ++ toString iteration ++ ": " ++ pass ++ " changed the program"
  | finished iterations => "optimizer finished after " ++ toString iterations ++ " iterations"

end Event

/-- The line of a message in a log. -/
def logLine (l : Level) (message : String) : String := l.text ++ " " ++ message

/-- The log of a sequence of events. -/
def log (v : Verbosity) (events : List Event) : List String :=
  (events.filter (v.shows ·.level)).map fun e => logLine e.level e.message

end ValueFlow

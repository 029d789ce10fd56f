import ValueFlow.ConstantBranches
import ValueFlow.Numbering

/-!
# The optimiser

A pass transforms a program function by function. The optimiser runs its passes
in turn, again and again, until a round changes nothing or the allowed number of
rounds is used up.

All functions of a program see the same table of constants during a pass; what
they add is merged into the table when the pass is through the program. A fault
ends the pass at once: the functions before it are transformed, the one with the
fault is transformed in part, and the constants added so far stay with the pass.
-/

namespace ValueFlow

/-- A pass, with what it keeps between runs. -/
inductive Pass where
  /-- Value numbering, with constants that are not merged into a program yet. -/
  | numbering (pending : Constants)
  | constantBranches

namespace Pass

/-- Value numbering without pending constants. -/
def valueNumbering : Pass := .numbering .empty

/-- The name of a pass. -/
def name : Pass → String
  | numbering _ => "value-numbering"
  | constantBranches => "constant-branches"

/-- What a pass leaves of `α`, a function or a program. -/
structure Run (α : Type) where
  /-- The pass with what it keeps. -/
  pass : Pass
  /-- The function or program, as far as it was transformed. -/
  subject : α
  events : List Event
  /-- The counters, or the fault that ended the pass. -/
  result : Except Fault Stats

/-- **Runs a pass on a function.** -/
def runOnFunction (p : Pass) (settings : Settings) (foreign : Foreign) (globals : Constants)
    (f : Function) : Run Function :=
  match p with
  | numbering pending =>
    let o := Numbering.run settings foreign globals f
    match o.result with
    | .error e => ⟨p, o.function, o.events, .error e⟩
    | .ok (stats, created) => ⟨.numbering (pending.merge created), o.function, o.events, .ok stats⟩
  | constantBranches =>
    ⟨p, f.foldBranches, [], .ok { branchesFolded := f.block.branchesFolded }⟩

/-- Runs a pass on functions, one after the other. -/
def runOnFunctions (p : Pass) (settings : Settings) (foreign : Foreign) (globals : Constants) :
    List Function → Run (List Function)
  | [] => ⟨p, [], [], .ok {}⟩
  | f :: rest =>
    let first := p.runOnFunction settings foreign globals f
    match first.result with
    | .error e => ⟨first.pass, first.subject :: rest, first.events, .error e⟩
    | .ok stats =>
      let others := first.pass.runOnFunctions settings foreign globals rest
      ⟨others.pass, first.subject :: others.subject, first.events ++ others.events,
        others.result.map stats.add⟩

/-- The constants that a pass has added since they were last taken, and the pass
without them. -/
def takeConstants : Pass → Constants × Pass
  | numbering pending => (pending, .numbering .empty)
  | p => (.empty, p)

/-- **Runs a pass on a program.** -/
def runOnProgram (p : Pass) (settings : Settings) (program : Program) : Run Program :=
  let run := p.runOnFunctions settings program.foreign program.globals program.functions
  let transformed := { program with functions := run.subject }
  match run.result with
  | .error e => ⟨run.pass, transformed, run.events, .error e⟩
  | .ok stats =>
    let (created, pass) := run.pass.takeConstants
    let news := if created.isEmpty then [] else [Event.newConstants p.name created.size]
    ⟨pass, { transformed with globals := transformed.globals.merge created }, run.events ++ news,
      .ok stats⟩

end Pass

/-- An optimiser: passes in the order in which they are run. -/
structure Optimizer where
  settings : Settings
  passes : List Pass

namespace Optimizer

/-- Value numbering, then constant branches. -/
def new (settings : Settings) : Optimizer := ⟨settings, [.valueNumbering, .constantBranches]⟩

/-- Adds a pass at the end. -/
def addPass (o : Optimizer) (p : Pass) : Optimizer := { o with passes := o.passes ++ [p] }

/-- What a round of passes, or a whole run, leaves. -/
structure Run where
  /-- The passes with what they keep. -/
  passes : List Pass
  /-- The program, as far as it was transformed. -/
  program : Program
  events : List Event
  /-- The counters, or the fault that ended the run. -/
  result : Except Fault Stats

/-- Runs passes in turn; `iteration` is the number of the round. -/
def round (settings : Settings) (iteration : Nat) : List Pass → Program → Run
  | [], program => ⟨[], program, [], .ok {}⟩
  | p :: rest, program =>
    let run := p.runOnProgram settings program
    match run.result with
    | .error e => ⟨run.pass :: rest, run.subject, run.events, .error e⟩
    | .ok stats =>
      let note := if stats.changed then [Event.changed iteration p.name] else []
      let others := round settings iteration rest run.subject
      ⟨run.pass :: others.passes, others.program, run.events ++ note ++ others.events,
        others.result.map stats.add⟩

/-- Runs rounds until one changes nothing, at most `rounds` of them, the first
with number `iteration`. -/
def rounds (settings : Settings) : (rounds : Nat) → (iteration : Nat) → List Pass → Program → Run
  | 0, iteration, passes, program => ⟨passes, program, [.finished iteration], .ok {}⟩
  | n + 1, iteration, passes, program =>
    let first := round settings iteration passes program
    match first.result with
    | .error e => ⟨first.passes, first.program, first.events, .error e⟩
    | .ok stats =>
      if stats.changed then
        let others := rounds settings n (iteration + 1) first.passes first.program
        ⟨others.passes, others.program, first.events ++ others.events, others.result.map stats.add⟩
      else
        ⟨first.passes, first.program, first.events ++ [.finished (iteration + 1)], .ok stats⟩

/-- **Optimises a program.** -/
def optimize (o : Optimizer) (program : Program) : Run :=
  rounds o.settings o.settings.maxIterations 0 o.passes program

end Optimizer

end ValueFlow

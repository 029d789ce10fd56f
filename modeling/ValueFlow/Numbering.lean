import ValueFlow.Numbering.Cleanup
import ValueFlow.Numbering.Walk

/-!
# Value numbering

`Numbering.run` numbers the values of one function: it gathers the alias facts
and the writes of the function, walks it, and cleans up. The shared constants
that the function needs beyond those of the program are handed back with the
counters.
-/

namespace ValueFlow

/-! ## What is gathered before the walk -/

mutual
/-- The alias facts of a block, in the order of its statements. -/
def Block.aliases : Block → Except Fault (List Alias)
  | .mk _ body => body.aliases
/-- The alias facts of a body. -/
def Body.aliases : Body → Except Fault (List Alias)
  | .done => .ok []
  | .instr i rest => do return (← i.aliases) ++ (← rest.aliases)
  | .cont c rest => do return c.aliases ++ (← c.innerAliases) ++ (← rest.aliases)
/-- The alias facts of the blocks of a continuation. -/
def Continuation.innerAliases : Continuation → Except Fault (List Alias)
  | .ifElse _ t e => do return (← t.aliases) ++ (← e.aliases)
  | .switch _ arms => arms.aliases
  | .deferred _ b => b.aliases
  | .nested b => b.aliases
/-- The alias facts of the arms of a switch. -/
def Arms.aliases : Arms → Except Fault (List Alias)
  | .none => .ok []
  | .default b => b.aliases
  | .case _ b rest => do return (← b.aliases) ++ (← rest.aliases)
end

/-- Every location that a block writes, defining assignments of stable variables
apart. -/
def Block.writtenLocations (b : Block) (aliases : AliasMap) : List Location :=
  b.instructions.flatMap fun i => i.writes.filterMap fun w => aliases.written? w.1 w.2

namespace Numbering

/-- What numbering a function leaves: the function as far as it was transformed,
the events, and the counters with the constants that the function adds, or the
fault that stopped it. -/
structure Outcome where
  function : Function
  events : List Event
  result : Except Fault (Stats × Constants)

/-- The context of a function. -/
def contextOf (settings : Settings) (foreign : Foreign) (f : Function) : Except Fault Context := do
  let aliases : AliasMap := ⟨← f.block.aliases⟩
  return ⟨f.name, settings, foreign, aliases, f.block.writtenLocations aliases⟩

/-- **Numbers the values of a function.** -/
def run (settings : Settings) (foreign : Foreign) (globals : Constants) (f : Function) : Outcome :=
  match contextOf settings foreign f with
  | .error e => ⟨f, [], .error e⟩
  | .ok ctx =>
    let v := visitFunction ctx f (.new globals)
    match v.fault with
    | some e => ⟨v.tree, v.state.events.toList, .error e⟩
    | none =>
      let (g, s) := removeRedundant ctx v.tree v.state
      ⟨g, s.events.toList ++ [.numbered g.name s.stats], .ok (s.stats, s.pool.created)⟩

end Numbering

end ValueFlow

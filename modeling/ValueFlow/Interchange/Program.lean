import ValueFlow.Interchange.Instruction
import ValueFlow.Json.Reader
import ValueFlow.Program
import ValueFlow.Settings

/-!
# Programs as JSON

`Program.toJson` and `Program.decoder` are the interchange form of programs;
`Program.ofText?` reads a program from text. Settings are read in the same way,
and counters are only written.
-/

namespace ValueFlow

/-! ## Blocks -/

namespace Target

/-- A target as JSON. -/
def toJson (t : Target) : Json :=
  .obj [("context", match t.context with
      | .control => .str "Control"
      | .worker name => .obj [("Worker", .str name)]),
    ("targeted", .bool t.targeted)]

/-- Reads a target. -/
def decoder : Decoder Target := .record do
  let context ← Decoder.field "context" <| .variant
    (fun
      | "Control" => some .control
      | _ => none)
    (fun
      | "Worker" => some (Decoder.text.map Context.worker)
      | _ => none)
  let targeted ← Decoder.field "targeted" .bool
  return ⟨context, targeted⟩

end Target

namespace WaitMode

/-- The name of a way to wait. -/
def tag : WaitMode → String
  | waitOnly => "WaitOnly"
  | dispatch => "TaskDispatch"

/-- Reads a way to wait. -/
def decoder : Decoder WaitMode :=
  .variant (fun tag => [waitOnly, dispatch].find? (·.tag = tag)) fun _ => none

end WaitMode

mutual
/-- A block as JSON. -/
def Block.toJson : Block → Json
  | .mk vars body => .obj [("vars", Var.listToJson vars), ("statements", .arr body.toJson)]
/-- The statements of a body as JSON. -/
def Body.toJson : Body → List Json
  | .done => []
  | .instr i rest => .obj [("Instruction", i.toJson)] :: rest.toJson
  | .cont c rest => .obj [("Continuation", c.toJson)] :: rest.toJson
/-- A continuation as JSON. -/
def Continuation.toJson : Continuation → Json
  | .ifElse condition t e =>
    .obj [("If", .obj [("condition", condition.toJson), ("then_block", t.toJson),
      ("else_block", e.toJson)])]
  | .switch value arms =>
    .obj [("Switch", .obj [("value", value.toJson), ("cases", .arr arms.casesToJson),
      ("default", arms.defaultToJson)])]
  | .deferred trigger b =>
    match trigger with
    | .wait vars target mode =>
      .obj [("Wait", .obj [("wait_vars", Var.listToJson vars), ("target", target.toJson),
        ("mode", .str mode.tag), ("block", b.toJson)])]
    | .range index start stop step =>
      .obj [("RangeLoop", .obj [("index", index.toJson), ("start", start.toJson),
        ("end", stop.toJson), ("step", step.toJson), ("block", b.toJson)])]
    | .foreach array member =>
      .obj [("Foreach", .obj [("array", array.toJson), ("member", member.toJson),
        ("block", b.toJson)])]
  | .nested b => .obj [("Nested", .obj [("block", b.toJson)])]
/-- The cases of a switch as JSON. -/
def Arms.casesToJson : Arms → List Json
  | .case label b rest => .arr [.int label.toInt, b.toJson] :: rest.casesToJson
  | _ => []
/-- The default of a switch as JSON. -/
def Arms.defaultToJson : Arms → Json
  | .none => .null
  | .default b => b.toJson
  | .case _ _ rest => rest.defaultToJson
end

/-- A statement of a body. -/
abbrev Statement := Instruction ⊕ Continuation

/-- The body of some statements. -/
def Body.ofList : List Statement → Body
  | [] => .done
  | .inl i :: rest => .instr i (ofList rest)
  | .inr c :: rest => .cont c (ofList rest)

namespace Continuation

/-- Reads the contents of a deferred block, its trigger first. -/
def deferredDecoder (block : Decoder Block) (trigger : Decoder.Fields Trigger) :
    Decoder Continuation := .record do
  let trigger ← trigger
  let b ← Decoder.field "block" block
  return .deferred trigger b

/-- Reads a continuation, given how its blocks are read. -/
def decoderOf (block : Decoder Block) : Decoder Continuation :=
  .variant (fun _ => none) fun
    | "If" => some <| .record do
      let condition ← Decoder.field "condition" Operand.decoder
      let t ← Decoder.field "then_block" block
      let e ← Decoder.field "else_block" block
      return .ifElse condition t e
    | "Switch" => some <| .record do
      let value ← Decoder.field "value" Operand.decoder
      let cases ← Decoder.field "cases" (.list (.pair .int64 block))
      let default ← Decoder.fieldOrNone "default" block
      return .switch value (.ofCases cases default)
    | "Wait" => some <| deferredDecoder block do
      let vars ← Decoder.field "wait_vars" (.list Var.decoder)
      let target ← Decoder.field "target" Target.decoder
      let mode ← Decoder.field "mode" WaitMode.decoder
      return .wait vars target mode
    | "RangeLoop" => some <| deferredDecoder block do
      let index ← Decoder.field "index" Var.decoder
      let start ← Decoder.field "start" Operand.decoder
      let stop ← Decoder.field "end" Operand.decoder
      let step ← Decoder.field "step" Operand.decoder
      return .range index start stop step
    | "Foreach" => some <| deferredDecoder block do
      let array ← Decoder.field "array" Var.decoder
      let member ← Decoder.field "member" Var.decoder
      return .foreach array member
    | "Nested" => some <| .record do
      let b ← Decoder.field "block" block
      return .nested b
    | _ => none

end Continuation

/-- Reads a block of at most the given depth. -/
def Block.decoderWithin : Nat → Decoder Block
  | 0 => fun _ _ => none
  | n + 1 =>
    let continuation := Continuation.decoderOf (decoderWithin n)
    let statement : Decoder Statement := .variant (fun _ => none) fun
      | "Instruction" => some (Instruction.decoder.map .inl)
      | "Continuation" => some (continuation.map .inr)
      | _ => none
    .record do
      let vars ← Decoder.field "vars" (.list Var.decoder)
      let statements ← Decoder.field "statements" (.list statement)
      return .mk vars (.ofList statements)

/-- Reads a block. No block is deeper than values may be nested. -/
def Block.decoder : Decoder Block := decoderWithin (Decoder.maxNesting + 1)

/-- Reads a continuation. -/
def Continuation.decoder : Decoder Continuation := decoderOf Block.decoder

/-! ## Programs -/

namespace Function

/-- A function as JSON. -/
def toJson (f : Function) : Json :=
  .obj [("name", .str f.name), ("inputs", Var.listToJson f.inputs),
    ("outputs", Var.listToJson f.outputs), ("target", f.target.toJson), ("block", f.block.toJson)]

/-- Reads a function. -/
def decoder : Decoder Function := .record do
  let name ← Decoder.field "name" .text
  let inputs ← Decoder.field "inputs" (.list Var.decoder)
  let outputs ← Decoder.field "outputs" (.list Var.decoder)
  let target ← Decoder.field "target" Target.decoder
  let block ← Decoder.field "block" Block.decoder
  return ⟨name, inputs, outputs, target, block⟩

end Function

/-- A dictionary as JSON. -/
def Dict.toJson {α : Type} (f : α → Json) (d : Dict α) : Json :=
  .obj (d.entries.map fun e => (e.1, f e.2))

namespace Constant

/-- A constant as JSON. -/
def toJson (c : Constant) : Json := .obj [("var", c.var.toJson), ("value", c.value.toJson)]

/-- Reads a constant. -/
def decoder : Decoder Constant := .record do
  let var ← Decoder.field "var" Var.decoder
  let value ← Decoder.field "value" Operand.decoder
  return ⟨var, value⟩

end Constant

namespace Constants

/-- A table of constants as JSON. -/
def toJson (t : Constants) : Json := .obj [("consts", t.table.toJson Constant.toJson)]

/-- Reads a table of constants. -/
def decoder : Decoder Constants := .record do
  return ⟨← Decoder.field "consts" (.dict Constant.decoder)⟩

end Constants

namespace ForeignFunction

/-- A foreign function as JSON. -/
def toJson (f : ForeignFunction) : Json :=
  .obj [("name", .str f.name), ("deterministic", .bool f.deterministic),
    ("side_effects", .bool f.sideEffects), ("commutative", .bool f.commutative),
    ("builtin", f.builtin.elim .null Builtin.toJson)]

/-- Reads a foreign function. -/
def decoder : Decoder ForeignFunction := .record do
  let name ← Decoder.field "name" .text
  let deterministic ← Decoder.field "deterministic" .bool
  let sideEffects ← Decoder.field "side_effects" .bool
  let commutative ← Decoder.field "commutative" .bool
  let builtin ← Decoder.fieldOr "builtin" (.nullable Builtin.decoder) none
  return ⟨name, deterministic, sideEffects, commutative, builtin⟩

end ForeignFunction

namespace Foreign

/-- A registry as JSON. -/
def toJson (r : Foreign) : Json := .obj [("functions", r.functions.toJson ForeignFunction.toJson)]

/-- Reads a registry. -/
def decoder : Decoder Foreign := .record do
  return ⟨← Decoder.field "functions" (.dict ForeignFunction.decoder)⟩

end Foreign

namespace Program

/-- A program as JSON. -/
def toJson (p : Program) : Json :=
  .obj [("functions", .arr (p.functions.map Function.toJson)), ("globals", p.globals.toJson),
    ("foreign", p.foreign.toJson)]

/-- Reads a program. -/
def decoder : Decoder Program := .record do
  let functions ← Decoder.field "functions" (.list Function.decoder)
  let globals ← Decoder.fieldOr "globals" Constants.decoder .empty
  let foreign ← Decoder.fieldOr "foreign" Foreign.decoder .empty
  return ⟨functions, globals, foreign⟩

/-- **The program that a text denotes.** -/
def ofText? (text : String) : Option Program := (Json.read? text).bind decoder.run

end Program

/-! ## Settings and counters -/

namespace Settings

/-- Settings as JSON. -/
def toJson (s : Settings) : Json :=
  .obj [("constant_fold", .bool s.constantFold), ("shared_constants", .bool s.sharedConstants),
    ("prune_waits", .bool s.pruneWaits), ("branch_merge", .bool s.branchMerge),
    ("max_iterations", .nat s.maxIterations)]

/-- Reads settings; what is not given has its default. -/
def decoder : Decoder Settings := .record do
  let standard : Settings := {}
  let constantFold ← Decoder.fieldOr "constant_fold" .bool standard.constantFold
  let sharedConstants ← Decoder.fieldOr "shared_constants" .bool standard.sharedConstants
  let pruneWaits ← Decoder.fieldOr "prune_waits" .bool standard.pruneWaits
  let branchMerge ← Decoder.fieldOr "branch_merge" .bool standard.branchMerge
  let maxIterations ← Decoder.fieldOr "max_iterations" .nat64 standard.maxIterations
  return ⟨constantFold, sharedConstants, pruneWaits, branchMerge, maxIterations⟩

/-- **The settings that a text denotes.** -/
def ofText? (text : String) : Option Settings := (Json.read? text).bind decoder.run

end Settings

/-- Counters as JSON. -/
def Stats.toJson (s : Stats) : Json :=
  .obj [("instructions_removed", .nat s.instructionsRemoved),
    ("operands_replaced", .nat s.operandsReplaced), ("wait_vars_pruned", .nat s.waitVarsPruned),
    ("instructions_folded", .nat s.instructionsFolded), ("branches_folded", .nat s.branchesFolded),
    ("facts_retained", .nat s.factsRetained)]

end ValueFlow

import ValueFlow.Program

/-!
# Listings

The listing of a program for human readers: a head with the shared constants,
then every function with its blocks indented by two blanks for each level. A
listing is a list of lines; `Program.listing` and `Function.listing` give the
text, each line ended by a line break.
-/

namespace ValueFlow

/-- Texts with a comma and a blank between them. -/
def commaList (texts : List String) : String := ", ".intercalate texts

namespace Instruction

/-- The instruction on one line. -/
def text : Instruction → String
  | storeScalar dst src => "store " ++ dst.name ++ ", " ++ src.text
  | loadScalar dst src => dst.name ++ " = retrieve " ++ src.name
  | storeRef dst src => "store_ref " ++ dst.name ++ ", " ++ src.name
  | loadRef dst src => dst.name ++ " = retrieve_ref " ++ src.name
  | compute timing op dst inputs =>
    dst.name ++ (match timing with
      | .now => " = local "
      | .later => " = async ") ++ op.text ++ " " ++ commaList (inputs.map Operand.text)
  | call timing function outputs inputs =>
    "[" ++ commaList (outputs.map (·.name)) ++ (match timing with
      | .now => "] = call_local "
      | .later => "] = call ") ++ function ++ "(" ++ commaList (inputs.map Operand.text) ++ ")"
  | readField access dst record path =>
    dst.name ++ accessText access ++ record.name ++ "." ++ pathText path
  | writeField record path src =>
    "store " ++ record.name ++ "." ++ pathText path ++ ", " ++ src.text
  | readElement access dst arr ix =>
    dst.name ++ accessText access ++ arr.name ++ "[" ++ ix.text ++ "]"
  | writeElement arr ix src => "store " ++ arr.name ++ "[" ++ ix.text ++ "], " ++ src.text
where
  /-- The word for the way a part is taken out. -/
  accessText : Access → String
    | .bind => " = alias "
    | .retrieve => " = retrieve "
    | .copy => " = copy "

end Instruction

/-- A variable with its type. -/
def Var.typed (v : Var) : String := v.name ++ ": " ++ v.ty.text

/-- The head line of a deferred block. -/
def Trigger.text : Trigger → String
  | wait vars target mode =>
    (match mode with
      | .waitOnly => "wait ["
      | .dispatch => "dispatch [") ++ commaList (vars.map (·.name)) ++ "] @" ++ target.text
  | range index start stop step =>
    "for " ++ index.name ++ " in " ++ start.text ++ ".." ++ stop.text ++ " step " ++ step.text
  | foreach array member => "foreach " ++ member.name ++ " in " ++ array.name

/-- A line at a level of indentation. -/
def indented (level : Nat) (line : String) : String :=
  String.ofList (List.replicate (2 * level) ' ') ++ line

/-- A line, lines inside it, and a closing brace. -/
def braced (level : Nat) (head : String) (inner : List String) : List String :=
  indented level (head ++ " \x7b") :: inner ++ [indented level "\x7d"]

mutual
/-- The lines of a block at a level of indentation. -/
def Block.lines (level : Nat) : Block → List String
  | .mk vars body => vars.map (fun v => indented level ("decl " ++ v.typed)) ++ body.lines level
/-- The lines of a body. -/
def Body.lines (level : Nat) : Body → List String
  | .done => []
  | .instr i rest => indented level i.text :: rest.lines level
  | .cont c rest => c.lines level ++ rest.lines level
/-- The lines of a continuation. An `else` without variables and statements is
left out. -/
def Continuation.lines (level : Nat) : Continuation → List String
  | .ifElse condition t e =>
    braced level ("if " ++ condition.text) (t.lines (level + 1)) ++
      (if e.isEmpty && e.vars.isEmpty then [] else braced level "else" (e.lines (level + 1)))
  | .switch value arms => braced level ("switch " ++ value.text) (arms.lines (level + 1))
  | .deferred trigger b => braced level trigger.text (b.lines (level + 1))
  | .nested b => braced level "block" (b.lines (level + 1))
/-- The lines of the arms of a switch. -/
def Arms.lines (level : Nat) : Arms → List String
  | .none => []
  | .default b => braced level "default" (b.lines (level + 1))
  | .case label b rest =>
    braced level ("case " ++ toString label.toInt) (b.lines (level + 1)) ++ rest.lines level
end

/-- The text of some lines. -/
def textOfLines (lines : List String) : String := String.join (lines.map (· ++ "\n"))

namespace Function

/-- The lines of a function. -/
def lines (f : Function) : List String :=
  braced 0
    ("fn " ++ f.name ++ "(" ++ commaList (f.inputs.map Var.typed) ++ ") -> ("
      ++ commaList (f.outputs.map Var.typed) ++ ") @" ++ f.target.text)
    (f.block.lines 1)

/-- **The listing of a function.** -/
def listing (f : Function) : String := textOfLines f.lines

end Function

/-- The line of a shared constant. -/
def Constant.line (c : Constant) : String := "const " ++ c.var.typed ++ " = " ++ c.value.text

/-- **The listing of a program.** -/
def Program.listing (p : Program) : String :=
  textOfLines <|
    ["; Functions: " ++ toString p.functions.length,
      "; Global constants: " ++ toString p.globals.size]
    ++ p.globals.table.values.map Constant.line ++ [""]
    ++ p.functions.flatMap fun f => f.lines ++ [""]

end ValueFlow

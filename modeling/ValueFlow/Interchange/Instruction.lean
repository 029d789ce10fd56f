import ValueFlow.Instruction
import ValueFlow.Interchange.Operand

/-!
# Instructions as JSON
-/

namespace ValueFlow

/-- A list of variables as JSON. -/
def Var.listToJson (vars : List Var) : Json := .arr (vars.map toJson)

/-- A list of operands as JSON. -/
def Operand.listToJson (operands : List Operand) : Json := .arr (operands.map toJson)

namespace Instruction

/-- An instruction as JSON. -/
def toJson : Instruction → Json
  | storeScalar dst src =>
    .obj [("StoreScalar", .obj [("dst", dst.toJson), ("src", src.toJson)])]
  | loadScalar dst src => .obj [("LoadScalar", .obj [("dst", dst.toJson), ("src", src.toJson)])]
  | storeRef dst src => .obj [("StoreRef", .obj [("dst", dst.toJson), ("src", src.toJson)])]
  | loadRef dst src => .obj [("LoadRef", .obj [("dst", dst.toJson), ("src", src.toJson)])]
  | compute timing op dst inputs =>
    let tag := match timing with
      | .now => "LocalOp"
      | .later => "AsyncOp"
    .obj [(tag, .obj [("op", op.toJson), ("dst", dst.toJson),
      ("inputs", Operand.listToJson inputs)])]
  | call timing function outputs inputs =>
    let tag := match timing with
      | .now => "CallForeignLocal"
      | .later => "CallForeign"
    .obj [(tag, .obj [("function", .str function), ("outputs", Var.listToJson outputs),
      ("inputs", Operand.listToJson inputs)])]
  | readField access dst record path =>
    let tag := match access with
      | .bind => "StructCreateAlias"
      | .retrieve => "StructRetrieveSub"
      | .copy => "StructCopyOut"
    .obj [(tag, .obj [("dst", dst.toJson), ("strct", record.toJson), ("path", .strs path)])]
  | writeField record path src =>
    .obj [("StructStoreSub",
      .obj [("strct", record.toJson), ("path", .strs path), ("src", src.toJson)])]
  | readElement access dst arr ix =>
    let tag := match access with
      | .bind => "ArrCreateAlias"
      | .retrieve => "ArrRetrieve"
      | .copy => "ArrCopyOut"
    .obj [(tag, .obj [("dst", dst.toJson), ("arr", arr.toJson), ("ix", ix.toJson)])]
  | writeElement arr ix src =>
    .obj [("ArrStore", .obj [("arr", arr.toJson), ("ix", ix.toJson), ("src", src.toJson)])]

/-- Reads the contents of an instruction from one variable to another. -/
def moveDecoder (make : Var → Var → Instruction) : Decoder Instruction := .record do
  let dst ← Decoder.field "dst" Var.decoder
  let src ← Decoder.field "src" Var.decoder
  return make dst src

/-- Reads the contents of a builtin operation. -/
def computeDecoder (timing : Timing) : Decoder Instruction := .record do
  let op ← Decoder.field "op" Builtin.decoder
  let dst ← Decoder.field "dst" Var.decoder
  let inputs ← Decoder.field "inputs" (.list Operand.decoder)
  return .compute timing op dst inputs

/-- Reads the contents of a foreign call. -/
def callDecoder (timing : Timing) : Decoder Instruction := .record do
  let function ← Decoder.field "function" .text
  let outputs ← Decoder.field "outputs" (.list Var.decoder)
  let inputs ← Decoder.field "inputs" (.list Operand.decoder)
  return .call timing function outputs inputs

/-- Reads the contents of an instruction that takes a field out of a record. -/
def readFieldDecoder (access : Access) : Decoder Instruction := .record do
  let dst ← Decoder.field "dst" Var.decoder
  let record ← Decoder.field "strct" Var.decoder
  let path ← Decoder.field "path" (.list .text)
  return .readField access dst record path

/-- Reads the contents of an instruction that takes an element out of an array. -/
def readElementDecoder (access : Access) : Decoder Instruction := .record do
  let dst ← Decoder.field "dst" Var.decoder
  let arr ← Decoder.field "arr" Var.decoder
  let ix ← Decoder.field "ix" Operand.decoder
  return .readElement access dst arr ix

/-- Reads an instruction. -/
def decoder : Decoder Instruction :=
  .variant (fun _ => none) fun
    | "StoreScalar" => some <| .record do
      let dst ← Decoder.field "dst" Var.decoder
      let src ← Decoder.field "src" Operand.decoder
      return .storeScalar dst src
    | "LoadScalar" => some (moveDecoder .loadScalar)
    | "StoreRef" => some (moveDecoder .storeRef)
    | "LoadRef" => some (moveDecoder .loadRef)
    | "LocalOp" => some (computeDecoder .now)
    | "AsyncOp" => some (computeDecoder .later)
    | "CallForeign" => some (callDecoder .later)
    | "CallForeignLocal" => some (callDecoder .now)
    | "StructCreateAlias" => some (readFieldDecoder .bind)
    | "StructRetrieveSub" => some (readFieldDecoder .retrieve)
    | "StructCopyOut" => some (readFieldDecoder .copy)
    | "StructStoreSub" => some <| .record do
      let record ← Decoder.field "strct" Var.decoder
      let path ← Decoder.field "path" (.list .text)
      let src ← Decoder.field "src" Operand.decoder
      return .writeField record path src
    | "ArrCreateAlias" => some (readElementDecoder .bind)
    | "ArrRetrieve" => some (readElementDecoder .retrieve)
    | "ArrCopyOut" => some (readElementDecoder .copy)
    | "ArrStore" => some <| .record do
      let arr ← Decoder.field "arr" Var.decoder
      let ix ← Decoder.field "ix" Operand.decoder
      let src ← Decoder.field "src" Operand.decoder
      return .writeElement arr ix src
    | _ => none

end Instruction

end ValueFlow

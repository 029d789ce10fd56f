import ValueFlow.Builtin
import ValueFlow.Json.Decoder
import ValueFlow.Operand

/-!
# Types, variables and operands as JSON

The JSON form of each type is given by two functions that stand side by side:
`toJson` writes a value, and `decoder` reads it.
-/

namespace ValueFlow

/-! ## Types -/

namespace Scalar

/-- The name of a scalar type. -/
def tag : Scalar → String
  | int => "Int"
  | float => "Float"
  | bool => "Bool"
  | string => "String"
  | void => "Void"

/-- The scalar type with a name. -/
def ofTag? (tag : String) : Option Scalar :=
  [int, float, bool, string, void].find? (·.tag = tag)

/-- A scalar type as JSON. -/
def toJson (s : Scalar) : Json := .str s.tag

/-- Reads a scalar type. -/
def decoder : Decoder Scalar := .variant ofTag? fun _ => none

end Scalar

mutual
/-- A type as JSON. -/
def Ty.toJson : Ty → Json
  | .future s => .obj [("Future", s.toJson)]
  | .value s => .obj [("Value", s.toJson)]
  | .ref t => .obj [("Ref", t.toJson)]
  | .array t => .obj [("Array", t.toJson)]
  | .struct name fields =>
    .obj [("Struct", .obj [("name", .str name), ("fields", .arr fields.toJson)])]
/-- The fields of a record as JSON. -/
def Fields.toJson : Fields → List Json
  | .nil => []
  | .cons name ty rest => .obj [("name", .str name), ("ty", ty.toJson)] :: rest.toJson
end

/-- Reads a type of at most the given depth. -/
def Ty.decoderWithin : Nat → Decoder Ty
  | 0 => fun _ _ => none
  | n + 1 =>
    let inner := decoderWithin n
    let field : Decoder (String × Ty) := .record do
      return (← Decoder.field "name" .text, ← Decoder.field "ty" inner)
    let struct : Decoder Ty := .record do
      let name ← Decoder.field "name" .text
      let fields ← Decoder.field "fields" (.list field)
      return .struct name (.ofList fields)
    .variant (fun _ => none) fun
      | "Future" => some (Scalar.decoder.map .future)
      | "Value" => some (Scalar.decoder.map .value)
      | "Ref" => some (inner.map .ref)
      | "Array" => some (inner.map .array)
      | "Struct" => some struct
      | _ => none

/-- Reads a type. No type is deeper than values may be nested. -/
def Ty.decoder : Decoder Ty := decoderWithin (Decoder.maxNesting + 1)

/-! ## Variables -/

namespace Alloc

/-- The name of a kind of storage. -/
def tag : Alloc → String
  | stack => "Stack"
  | temp => "Temp"
  | part => "Alias"
  | task => "Local"
  | globalConst => "GlobalConst"

/-- The kind of storage with a name. -/
def ofTag? (tag : String) : Option Alloc :=
  [stack, temp, part, task, globalConst].find? (·.tag = tag)

/-- Reads a kind of storage. -/
def decoder : Decoder Alloc := .variant ofTag? fun _ => none

end Alloc

namespace Definition

/-- The name of a kind of definition. -/
def tag : Definition → String
  | localUser => "LocalUser"
  | localCompiler => "LocalCompiler"
  | globalConst => "GlobalConst"
  | inArg => "InArg"
  | outArg => "OutArg"

/-- The kind of definition with a name. -/
def ofTag? (tag : String) : Option Definition :=
  [localUser, localCompiler, globalConst, inArg, outArg].find? (·.tag = tag)

/-- Reads a kind of definition. -/
def decoder : Decoder Definition := .variant ofTag? fun _ => none

end Definition

namespace Provenance

/-- A provenance as JSON. -/
def toJson : Provenance → Json
  | unknown => .str "Unknown"
  | user => .str "User"
  | part => .str "Alias"
  | optimizer => .str "Optimizer"
  | valueOf name => .obj [("ValueOf", .str name)]
  | filenameOf name => .obj [("FilenameOf", .str name)]

/-- Reads a provenance. -/
def decoder : Decoder Provenance :=
  .variant
    (fun
      | "Unknown" => some unknown
      | "User" => some user
      | "Alias" => some part
      | "Optimizer" => some optimizer
      | _ => none)
    (fun
      | "ValueOf" => some (Decoder.text.map valueOf)
      | "FilenameOf" => some (Decoder.text.map filenameOf)
      | _ => none)

end Provenance

namespace Var

/-- A variable as JSON. -/
def toJson (v : Var) : Json :=
  .obj [("name", .str v.name), ("ty", v.ty.toJson), ("alloc", .str v.alloc.tag),
    ("def", .str v.definition.tag), ("provenance", v.provenance.toJson)]

/-- Reads a variable. -/
def decoder : Decoder Var := .record do
  let name ← Decoder.field "name" .text
  let ty ← Decoder.field "ty" Ty.decoder
  let alloc ← Decoder.field "alloc" Alloc.decoder
  let definition ← Decoder.field "def" Definition.decoder
  let provenance ← Decoder.field "provenance" Provenance.decoder
  return ⟨name, ty, alloc, definition, provenance⟩

end Var

/-! ## Operands -/

/-- A literal as JSON. -/
def Literal.toJson : Literal → Json
  | int n => .obj [("Int", .int n.toInt)]
  | float x => .obj [("Float", .float x)]
  | bool b => .obj [("Bool", .bool b)]
  | str s => .obj [("Str", .str s)]
  | null => .str "Null"

namespace Operand

/-- An operand as JSON. -/
def toJson : Operand → Json
  | var v => .obj [("Var", v.toJson)]
  | lit l => l.toJson

/-- Reads an operand. -/
def decoder : Decoder Operand :=
  .variant
    (fun
      | "Null" => some (lit .null)
      | _ => none)
    (fun
      | "Var" => some (Var.decoder.map var)
      | "Int" => some (Decoder.int64.map fun n => lit (.int n))
      | "Float" => some (Decoder.double.map fun x => lit (.float x))
      | "Bool" => some (Decoder.bool.map fun b => lit (.bool b))
      | "Str" => some (Decoder.text.map fun s => lit (.str s))
      | _ => none)

end Operand

/-! ## Builtin operations -/

namespace Builtin

/-- The name of a builtin operation. -/
def tag : Builtin → String
  | add => "Add"
  | sub => "Sub"
  | mul => "Mul"
  | div => "Div"
  | mod => "Mod"
  | neg => "Neg"
  | eq => "Eq"
  | ne => "Ne"
  | lt => "Lt"
  | le => "Le"
  | gt => "Gt"
  | ge => "Ge"
  | and => "And"
  | or => "Or"
  | not => "Not"
  | concat => "Concat"
  | intToFloat => "IntToFloat"
  | copy => "Copy"

/-- All builtin operations. -/
def all : List Builtin :=
  [add, sub, mul, div, mod, neg, eq, ne, lt, le, gt, ge, and, or, not, concat, intToFloat, copy]

/-- The builtin operation with a name. -/
def ofTag? (tag : String) : Option Builtin := all.find? (·.tag = tag)

/-- A builtin operation as JSON. -/
def toJson (op : Builtin) : Json := .str op.tag

/-- Reads a builtin operation. -/
def decoder : Decoder Builtin := .variant ofTag? fun _ => none

end Builtin

end ValueFlow

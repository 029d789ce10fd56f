/-!
# Types

Programs compute with scalars. A scalar lives either in the shared data store as
a *future*, which is assigned once and can be waited for, or in a task as a
plain *value*. References, arrays and records are built on top.

`Ty.fieldAt` follows a path of field names through records and references to
records; a path that leads nowhere is explained by a `PathFault`.
-/

namespace ValueFlow

/-- Scalar types. -/
inductive Scalar where
  | int
  | float
  | bool
  | string
  | void
deriving DecidableEq, Inhabited

/-- The word for a scalar type in listings. -/
def Scalar.text : Scalar → String
  | .int => "int"
  | .float => "float"
  | .bool => "boolean"
  | .string => "string"
  | .void => "void"

mutual
/-- The type of a variable. -/
inductive Ty where
  /-- A single-assignment datum in the data store. -/
  | future (scalar : Scalar)
  /-- A value local to a task. -/
  | value (scalar : Scalar)
  /-- A handle to another datum. -/
  | ref (target : Ty)
  /-- Elements under integer keys. -/
  | array (element : Ty)
  /-- A record with named fields. -/
  | struct (name : String) (fields : Fields)
deriving DecidableEq
/-- The fields of a record, in order. -/
inductive Fields where
  | nil
  | cons (name : String) (ty : Ty) (rest : Fields)
deriving DecidableEq
end

instance : Inhabited Ty := ⟨.future .int⟩

/-- The type of the first field with the given name. -/
def Fields.get? (name : String) : Fields → Option Ty
  | .nil => none
  | .cons n ty rest => if n = name then some ty else rest.get? name

/-- The fields of a list of names and types. -/
def Fields.ofList : List (String × Ty) → Fields
  | [] => .nil
  | (name, ty) :: rest => .cons name ty (ofList rest)

/-- **Why a field path leads nowhere.** -/
inductive PathFault where
  /-- There is no field in the path. -/
  | empty
  /-- A field is asked of something that is not a record. -/
  | notStruct (ty : Ty)
  /-- The record has no such field. -/
  | noField (struct field : String)
deriving DecidableEq

namespace Ty

/-- The word for a type in listings. -/
def text : Ty → String
  | future s => s.text
  | value s => "$" ++ s.text
  | ref t => "*(" ++ t.text ++ ")"
  | array t => t.text ++ "[]"
  | struct name _ => "struct " ++ name

/-- A future of some scalar type. -/
def isFuture : Ty → Bool
  | future _ => true
  | _ => false

/-- A task-local value of some scalar type. -/
def isValue : Ty → Bool
  | value _ => true
  | _ => false

/-- A reference. -/
def isRef : Ty → Bool
  | ref _ => true
  | _ => false

/-- The scalar type of a future or a value. -/
def scalar? : Ty → Option Scalar
  | future s => some s
  | value s => some s
  | _ => none

/-- **The type of what retrieving the contents gives.** Only futures and
references can be retrieved. -/
def retrieved? : Ty → Option Ty
  | future s => some (value s)
  | ref t => some t
  | _ => none

/-- The record that a field access works on: the type itself or the target of a
reference. -/
def record : Ty → Except PathFault (String × Fields)
  | struct name fields => .ok (name, fields)
  | ref (struct name fields) => .ok (name, fields)
  | ref t => .error (.notStruct t)
  | t => .error (.notStruct t)

/-- The type of a field. -/
def field (t : Ty) (name : String) : Except PathFault Ty := do
  let (owner, fields) ← t.record
  match fields.get? name with
  | some ty => .ok ty
  | none => .error (.noField owner name)

/-- **The type at the end of a field path.** The empty path is refused. -/
def fieldAt (t : Ty) : List String → Except PathFault Ty
  | [] => .error .empty
  | path => path.foldlM field t

end Ty

/-- The reason given to the user. -/
def PathFault.text : PathFault → String
  | empty => "empty field path"
  | notStruct ty => ty.text ++ " is not a struct"
  | noField struct field => struct ++ " has no field " ++ field

end ValueFlow

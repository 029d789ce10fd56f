import ValueFlow.Dict
import ValueFlow.Json.Basic

/-!
# Decoding JSON values

A `Decoder α` takes a JSON value to a value of `α`, or refuses it. Each decoder
is told how many more arrays and objects may be nested inside one another at
this point: text that nests deeper than `Decoder.maxNesting` is refused, unless
the deep part is a member that nobody asks for.

A record is written as an object, whose further members are skipped, or as an
array of its fields in order. A variant is written as its name alone or as an
object with its name as the only key. The combinators below know these forms; a
decoder of a type only names its fields and variants.
-/

namespace ValueFlow

/-- **A reader of JSON values**, given how many more levels of nesting are
allowed. -/
abbrev Decoder (α : Type) := Nat → Json → Option α

namespace Decoder

variable {α β : Type}

/-- Arrays and objects may be nested this deep. -/
def maxNesting : Nat := 127

/-- Decodes a whole value. -/
def run (d : Decoder α) (j : Json) : Option α := d maxNesting j

/-- A decoded value, transformed. -/
def map (f : α → β) (d : Decoder α) : Decoder β := fun room j => (d room j).map f

/-- A text. -/
def text : Decoder String
  | _, .str s => some s
  | _, _ => none

/-- A truth value. -/
def bool : Decoder Bool
  | _, .bool b => some b
  | _, _ => none

/-- A signed integer of 64 bits. -/
def int64 : Decoder Int64
  | _, .int n =>
    if Int64.minValue.toInt ≤ n ∧ n ≤ Int64.maxValue.toInt then some (Int64.ofInt n) else none
  | _, _ => none

/-- An unsigned integer of 64 bits. -/
def nat64 : Decoder Nat
  | _, .int n => if 0 ≤ n then some n.toNat else none
  | _, _ => none

/-- A double; an integer stands for the nearest one. -/
def double : Decoder Double
  | _, .int n => some (Double.ofInt n)
  | _, .float x => some x
  | _, _ => none

/-- A value, or `null` for none. -/
def nullable (d : Decoder α) : Decoder (Option α)
  | _, .null => some none
  | room, j => (d room j).map some

/-- An array of values. -/
def list (d : Decoder α) : Decoder (List α)
  | room + 1, .arr items => items.mapM (d room)
  | _, _ => none

/-- An array of exactly two values. -/
def pair (a : Decoder α) (b : Decoder β) : Decoder (α × β)
  | room + 1, .arr [x, y] => do return (← a room x, ← b room y)
  | _, _ => none

/-- An object with arbitrary keys; of a repeated key the last value counts. -/
def dict (d : Decoder α) : Decoder (Dict α)
  | room + 1, .obj members => do
    let entries ← members.mapM fun m => (d room m.2).map (m.1, ·)
    return Dict.ofList entries
  | _, _ => none

/-- **A variant.** `plain` knows the variants without contents, which are
written as a name or as an object that gives `null` to the name; `tagged`
decodes the contents of the others. -/
def variant (plain : String → Option α) (tagged : String → Option (Decoder α)) : Decoder α
  | _, .str name => plain name
  | room + 1, .obj [(name, contents)] =>
    match tagged name, contents with
    | some d, _ => d room contents
    | none, .null => plain name
    | none, _ => none
  | _, _ => none

/-! ## Records -/

/-- What is left to read of a record. -/
inductive Source where
  /-- The members of an object. -/
  | members (room : Nat) (members : List (String × Json))
  /-- The fields of an array, from the next one on. -/
  | items (room : Nat) (items : List Json)

/-- A reader of some fields of a record. -/
abbrev Fields := StateT Source Option

/-- The next field, under its name in an object. It has to be there, and only
once. -/
def field (name : String) (d : Decoder α) : Fields α
  | .members room members =>
    match members.filter (·.1 = name) with
    | [(_, j)] => (d room j).map (·, .members room members)
    | _ => none
  | .items room (j :: rest) => (d room j).map (·, .items room rest)
  | .items _ [] => none

/-- A field with a default: an object may lack it, and an array may end before
it. -/
def fieldOr (name : String) (d : Decoder α) (default : α) : Fields α
  | .members room members =>
    if members.any (·.1 = name) then field name d (.members room members)
    else some (default, .members room members)
  | .items room [] => some (default, .items room [])
  | source => field name d source

/-- A field that an object may lack, which then is none; an array has to give it. -/
def fieldOrNone (name : String) (d : Decoder α) : Fields (Option α)
  | .members room members => fieldOr name (nullable d) none (.members room members)
  | source => field name (nullable d) source

/-- **A record**, as an object or as an array of all its fields and nothing more. -/
def record (fields : Fields α) : Decoder α
  | room + 1, .obj members => (fields (.members room members)).map (·.1)
  | room + 1, .arr items =>
    match fields (.items room items) with
    | some (a, .items _ []) => some a
    | _ => none
  | _, _ => none

end Decoder

end ValueFlow

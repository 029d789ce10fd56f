import ValueFlow.Decimal.Double

/-!
# JSON values

The values that JSON text denotes. Objects keep their members in the order
written, repeated keys included, so that a reader of records can refuse a field
given twice.

Some well-formed text denotes no value: a number beyond the range of doubles, or
a string with half of a surrogate pair. Such a piece of text is harmless where
it is skipped and an error where it is read, so it has a constructor of its own,
`unreadable`.
-/

namespace ValueFlow

/-- A JSON value. -/
inductive Json where
  | null
  | bool (b : Bool)
  /-- A number without fraction and exponent that fits 64 bits, signed or unsigned. -/
  | int (n : Int)
  /-- Any other number. -/
  | float (x : Double)
  | str (s : String)
  | arr (items : List Json)
  /-- An object, member by member. -/
  | obj (members : List (String × Json))
  /-- Well-formed text that denotes no value. -/
  | unreadable
deriving Inhabited

namespace Json

/-- A natural number. -/
def nat (n : Nat) : Json := .int n

/-- A list of texts. -/
def strs (texts : List String) : Json := .arr (texts.map .str)

/-- The value of a member, the last one if the key is repeated. -/
def get? (j : Json) (key : String) : Option Json :=
  match j with
  | .obj members => (members.reverse.find? (·.1 = key)).map (·.2)
  | _ => none

end Json

end ValueFlow

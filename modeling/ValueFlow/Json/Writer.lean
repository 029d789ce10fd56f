import ValueFlow.Decimal.Layout
import ValueFlow.Json.Basic

/-!
# Writing JSON text

Two forms of the same text: `compact` has no white space at all, and `pretty`
puts every item and every member on a line of its own, indented by two blanks
for each level. Members keep their order.
-/

namespace ValueFlow.Json

/-- The code point of a control character in four hexadecimal digits. -/
def hexControl (c : Char) : List Char :=
  let digits := Nat.toDigits 16 c.toNat
  List.replicate (4 - digits.length) '0' ++ digits

/-- How a character is written in a string literal: only quotes, backslashes and
controls have escapes. -/
def escapeChar (c : Char) : List Char :=
  if c = '\"' then ['\\', '\"']
  else if c = '\\' then ['\\', '\\']
  else if c = '\x08' then ['\\', 'b']
  else if c = '\x0c' then ['\\', 'f']
  else if c = '\n' then ['\\', 'n']
  else if c = '\r' then ['\\', 'r']
  else if c = '\t' then ['\\', 't']
  else if c.toNat < 0x20 then '\\' :: 'u' :: hexControl c
  else [c]

/-- A string literal. -/
def quoted (s : String) : String :=
  String.ofList ('\"' :: s.toList.flatMap escapeChar ++ ['\"'])

mutual
/-- **The text of a value without white space.** What denotes no value is
written as `null`. -/
def compact : Json → String
  | .null => "null"
  | .bool b => if b then "true" else "false"
  | .int n => toString n
  | .float x => Layout.json.render x
  | .str s => quoted s
  | .arr items => "[" ++ compactItems items ++ "]"
  | .obj members => "\x7b" ++ compactMembers members ++ "\x7d"
  | .unreadable => "null"

/-- Items with commas between them. -/
def compactItems : List Json → String
  | [] => ""
  | [item] => item.compact
  | item :: rest => item.compact ++ "," ++ compactItems rest

/-- Members with commas between them. -/
def compactMembers : List (String × Json) → String
  | [] => ""
  | [(key, value)] => quoted key ++ ":" ++ value.compact
  | (key, value) :: rest => quoted key ++ ":" ++ value.compact ++ "," ++ compactMembers rest
end

/-- A new line with the indentation of a level. -/
def newline (level : Nat) : String :=
  String.ofList ('\n' :: List.replicate (2 * level) ' ')

mutual
/-- The text of a value that starts on a line of the given level. -/
def prettyAt (level : Nat) : Json → String
  | .null => "null"
  | .bool b => if b then "true" else "false"
  | .int n => toString n
  | .float x => Layout.json.render x
  | .str s => quoted s
  | .arr [] => "[]"
  | .arr (item :: items) =>
    "[" ++ newline (level + 1) ++ item.prettyAt (level + 1) ++ prettyItems (level + 1) items
      ++ newline level ++ "]"
  | .obj [] => "\x7b\x7d"
  | .obj ((key, value) :: members) =>
    "\x7b" ++ newline (level + 1) ++ quoted key ++ ": " ++ value.prettyAt (level + 1)
      ++ prettyMembers (level + 1) members ++ newline level ++ "\x7d"
  | .unreadable => "null"

/-- The items behind the first one, each on a line of the given level. -/
def prettyItems (level : Nat) : List Json → String
  | [] => ""
  | item :: items => "," ++ newline level ++ item.prettyAt level ++ prettyItems level items

/-- The members behind the first one, each on a line of the given level. -/
def prettyMembers (level : Nat) : List (String × Json) → String
  | [] => ""
  | (key, value) :: members =>
    "," ++ newline level ++ quoted key ++ ": " ++ value.prettyAt level
      ++ prettyMembers level members
end

/-- **The text of a value, one item or member on each line.** -/
def pretty (j : Json) : String := j.prettyAt 0

end ValueFlow.Json

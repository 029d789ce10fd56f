import ValueFlow.Json.Basic

/-!
# Reading JSON text

A strict reader. White space may stand between tokens and nowhere else; there
are no comments, no trailing commas and no numbers with superfluous zeros.
`Json.read?` takes the text of one value with nothing but white space around it.

The reader works on the characters that are left and returns what it read with
the rest. Every call consumes a character, so the length of the text bounds the
depth of the recursion.
-/

namespace ValueFlow.Json

/-- The four blank characters of JSON. -/
def isBlank (c : Char) : Bool := c = ' ' || c = '\n' || c = '\t' || c = '\r'

/-- Drops leading white space. -/
def skipBlanks (cs : List Char) : List Char := cs.dropWhile isBlank

/-! ## Numbers -/

/-- The natural number that decimal digits denote. -/
def natOfDigits (digits : List Char) : Nat :=
  digits.foldl (fun n c => 10 * n + (c.toNat - '0'.toNat)) 0

/-- The longest run of digits in front, and the rest. -/
def takeDigits (cs : List Char) : List Char × List Char :=
  (cs.takeWhile Char.isDigit, cs.dropWhile Char.isDigit)

/-- The integral digits: a zero alone, or digits that do not start with a zero. -/
def readWhole? (cs : List Char) : Option (List Char × List Char) :=
  match cs with
  | '0' :: rest => if (rest.head?.map Char.isDigit).getD false then none else some (['0'], rest)
  | _ =>
    let (digits, rest) := takeDigits cs
    if digits.isEmpty then none else some (digits, rest)

/-- The digits behind the point, if there is a point; at least one must follow
it. -/
def readFraction? (cs : List Char) : Option (Option (List Char) × List Char) :=
  match cs with
  | '.' :: rest =>
    let (digits, rest) := takeDigits rest
    if digits.isEmpty then none else some (some digits, rest)
  | _ => some (none, cs)

/-- The power of ten, if one is given; at least one digit must follow its mark
and sign. -/
def readPower? (cs : List Char) : Option (Option Int × List Char) :=
  match cs with
  | c :: rest =>
    if c = 'e' || c = 'E' then
      let (negative, rest) := match rest with
        | '-' :: rest => (true, rest)
        | '+' :: rest => (false, rest)
        | _ => (false, rest)
      let (digits, rest) := takeDigits rest
      if digits.isEmpty then none
      else some (some (if negative then -(natOfDigits digits : Int) else natOfDigits digits), rest)
    else some (none, cs)
  | [] => some (none, [])

/-- A double as a JSON value; an infinite one stands for a number out of range. -/
def ofDouble (x : Double) : Json :=
  if x.isFinite then .float x else .unreadable

/-- **The value of a number literal.** Without fraction and power it is an
integer if it fits 64 bits, signed or unsigned; minus zero is no integer.
Everything else is a double. -/
def numberOf (negative : Bool) (whole : List Char) (fraction : Option (List Char))
    (power : Option Int) : Json :=
  match fraction, power with
  | none, none =>
    let n := natOfDigits whole
    if negative then
      if 0 < n ∧ n ≤ UInt64.size / 2 then .int (-n) else ofDouble (Double.ofDecimal true n 0)
    else if n < UInt64.size then .int n
    else ofDouble (Double.ofDecimal false n 0)
  | _, _ =>
    let places := fraction.getD []
    ofDouble (Double.ofDecimal negative (natOfDigits (whole ++ places))
      (power.getD 0 - places.length))

/-- A number literal behind its sign. -/
def readMagnitude? (negative : Bool) (cs : List Char) : Option (Json × List Char) := do
  let (whole, cs) ← readWhole? cs
  let (fraction, cs) ← readFraction? cs
  let (power, cs) ← readPower? cs
  return (numberOf negative whole fraction power, cs)

/-! ## Strings -/

/-- The value of a hexadecimal digit. -/
def hexValue? (c : Char) : Option Nat :=
  if '0' ≤ c ∧ c ≤ '9' then some (c.toNat - '0'.toNat)
  else if 'a' ≤ c ∧ c ≤ 'f' then some (c.toNat - 'a'.toNat + 10)
  else if 'A' ≤ c ∧ c ≤ 'F' then some (c.toNat - 'A'.toNat + 10)
  else none

/-- The number that four hexadecimal digits denote. -/
def hexUnit? (a b c d : Char) : Option Nat := do
  return 4096 * (← hexValue? a) + 256 * (← hexValue? b) + 16 * (← hexValue? c) + (← hexValue? d)

/-- The character that a one-letter escape denotes. -/
def shortEscape? (c : Char) : Option Char :=
  if c = '\"' || c = '\\' || c = '/' then some c
  else if c = 'b' then some '\x08'
  else if c = 'f' then some '\x0c'
  else if c = 'n' then some '\n'
  else if c = 'r' then some '\r'
  else if c = 't' then some '\t'
  else none

/-- **The characters of a string literal behind its opening quote, as numbers**,
and the text behind the closing quote. A character that stands for itself gives
its code point and an escape gives its 16-bit unit, which may be half of a
surrogate pair. Control characters have to be escaped. -/
def readUnits? : List Char → Option (List Nat × List Char)
  | [] => none
  | '\"' :: rest => some ([], rest)
  | '\\' :: 'u' :: a :: b :: c :: d :: rest => do
    let unit ← hexUnit? a b c d
    let (units, rest) ← readUnits? rest
    return (unit :: units, rest)
  | '\\' :: c :: rest => do
    let c ← shortEscape? c
    let (units, rest) ← readUnits? rest
    return (c.toNat :: units, rest)
  | c :: rest =>
    if c.toNat < 0x20 || c = '\\' then none
    else do
      let (units, rest) ← readUnits? rest
      return (c.toNat :: units, rest)

/-- The characters that the numbers of `readUnits?` denote: the two halves of a
surrogate pair give one character, and a half that stands alone gives none. -/
def joinUnits? : List Nat → Option (List Char)
  | [] => some []
  | u :: rest =>
    if 0xD800 ≤ u ∧ u < 0xDC00 then
      match rest with
      | low :: rest =>
        if 0xDC00 ≤ low ∧ low < 0xE000 then
          (joinUnits? rest).map (Char.ofNat (0x10000 + (u - 0xD800) * 0x400 + (low - 0xDC00)) :: ·)
        else none
      | [] => none
    else if 0xDC00 ≤ u ∧ u < 0xE000 then none
    else (joinUnits? rest).map (Char.ofNat u :: ·)

/-- The text that the numbers of `readUnits?` denote. -/
def textOfUnits? (units : List Nat) : Option String :=
  (joinUnits? units).map String.ofList

/-! ## Values -/

/-- An object from its members; a key that denotes no text makes the object
unreadable. -/
def ofMembers (members : List (Option String × Json)) : Json :=
  match members.mapM fun (key, value) => key.map (·, value) with
  | some members => .obj members
  | none => .unreadable

/-- The rest of the text behind a given word in front. -/
def dropWord? (word cs : List Char) : Option (List Char) :=
  if word.isPrefixOf cs then some (cs.drop word.length) else none

mutual
/-- One value, with white space in front. -/
def readValue? : Nat → List Char → Option (Json × List Char)
  | 0, _ => none
  | fuel + 1, cs =>
    match skipBlanks cs with
    | 'n' :: rest => (dropWord? "ull".toList rest).map (Json.null, ·)
    | 't' :: rest => (dropWord? "rue".toList rest).map (Json.bool true, ·)
    | 'f' :: rest => (dropWord? "alse".toList rest).map (Json.bool false, ·)
    | '\"' :: rest => do
      let (units, rest) ← readUnits? rest
      return ((textOfUnits? units).elim .unreadable .str, rest)
    | '[' :: rest =>
      match skipBlanks rest with
      | ']' :: rest => some (.arr [], rest)
      | _ => (readItems? fuel rest).map fun (items, rest) => (.arr items, rest)
    | '\x7b' :: rest =>
      match skipBlanks rest with
      | '\x7d' :: rest => some (.obj [], rest)
      | _ => (readMembers? fuel rest).map fun (members, rest) => (ofMembers members, rest)
    | '-' :: rest => readMagnitude? true rest
    | cs => readMagnitude? false cs

/-- The items of an array, at least one, with the closing bracket. -/
def readItems? : Nat → List Char → Option (List Json × List Char)
  | 0, _ => none
  | fuel + 1, cs => do
    let (item, rest) ← readValue? fuel cs
    match skipBlanks rest with
    | ']' :: rest => return ([item], rest)
    | ',' :: rest =>
      let (items, rest) ← readItems? fuel rest
      return (item :: items, rest)
    | _ => none

/-- The members of an object, at least one, with the closing brace. -/
def readMembers? : Nat → List Char → Option (List (Option String × Json) × List Char)
  | 0, _ => none
  | fuel + 1, cs =>
    match skipBlanks cs with
    | '\"' :: rest => do
      let (units, rest) ← readUnits? rest
      let key := textOfUnits? units
      match skipBlanks rest with
      | ':' :: rest =>
        let (value, rest) ← readValue? fuel rest
        match skipBlanks rest with
        | '\x7d' :: rest => return ([(key, value)], rest)
        | ',' :: rest =>
          let (members, rest) ← readMembers? fuel rest
          return ((key, value) :: members, rest)
        | _ => none
      | _ => none
    | _ => none
end

/-- **The value that a text denotes**, if the text is one JSON value with white
space around it. -/
def read? (text : String) : Option Json := do
  let cs := text.toList
  let (value, rest) ← readValue? (cs.length + 1) cs
  if (skipBlanks rest).isEmpty then return value else none

end ValueFlow.Json

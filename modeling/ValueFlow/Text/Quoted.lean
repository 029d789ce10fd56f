import ValueFlow.Text.Hidden

/-!
# Quoted text

A text in double quotes, one line long. Quotes, backslashes and the four common
controls have short escapes; any other hidden character is written by its code
point in hexadecimal, and everything else stands for itself. Each character has
one written form, and no form is the beginning of another.
-/

namespace ValueFlow.Text

/-- The code point of a character in lower-case hexadecimal digits, without
leading zeros. -/
def hexDigits (c : Char) : List Char :=
  Nat.toDigits 16 c.toNat

/-- **How one character is written between the quotes.** -/
def escape (c : Char) : List Char :=
  if c = '\\' then ['\\', '\\']
  else if c = '\"' then ['\\', '\"']
  else if c = '\t' then ['\\', 't']
  else if c = '\n' then ['\\', 'n']
  else if c = '\r' then ['\\', 'r']
  else if c = '\x00' then ['\\', '0']
  else if isHidden c then '\\' :: 'u' :: '\x7b' :: hexDigits c ++ ['\x7d']
  else [c]

/-- A text between double quotes, each character in its written form. -/
def quote (s : String) : String :=
  String.ofList ('\"' :: s.toList.flatMap escape ++ ['\"'])

end ValueFlow.Text

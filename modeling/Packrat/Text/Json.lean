/-
Compact JSON text: strings, arrays and objects without spaces. Of the characters above U+001F only
the quote and the backslash are escaped.
-/
import Packrat.Text.Quoted

namespace Packrat.Json

/-- How one character is written in a string. -/
def escape (c : Char) : List Char :=
  if c = '"' ∨ c = '\\' then ['\\', c]
  else if c = '\x08' then ['\\', 'b']
  else if c = '\x0c' then ['\\', 'f']
  else if c = '\n' then ['\\', 'n']
  else if c = '\r' then ['\\', 'r']
  else if c = '\t' then ['\\', 't']
  else if c.toNat < 0x20 then ['\\', 'u', '0', '0', hexDigit (c.toNat / 16), hexDigit (c.toNat % 16)]
  else [c]
where
  /-- One hexadecimal digit. -/
  hexDigit (n : Nat) : Char := Nat.digitChar n

/-- A string. -/
def string (text : List Char) : String := String.ofList ('"' :: text.flatMap escape ++ ['"'])

/-- An array of written values. -/
def array (items : List String) : String := "[" ++ String.intercalate "," items ++ "]"

/-- An object of keys with written values, in the given order; a repeated key stays repeated. -/
def object (members : List (String × String)) : String :=
  "\x7b" ++ String.intercalate "," (members.map fun (key, value) => string key.toList ++ ":" ++ value) ++ "\x7d"

end Packrat.Json

/-
Texts and characters as messages quote them: between quotes, with the quote and the backslash
escaped, the common controls by letter, and every other unprintable character by its code point.
-/
import Packrat.Text.Printable

namespace Packrat

/-- Lower-case hexadecimal digits without padding. -/
def hexDigits (n : Nat) : List Char := Nat.toDigits 16 n

namespace Quoted

/-- How one character is written between the given quotes. -/
def escape (quote c : Char) : List Char :=
  if c = '\x00' then ['\\', '0']
  else if c = '\t' then ['\\', 't']
  else if c = '\r' then ['\\', 'r']
  else if c = '\n' then ['\\', 'n']
  else if c = '\\' ∨ c = quote then ['\\', c]
  else if isPrintable c then [c]
  else ['\\', 'u', '\x7b'] ++ hexDigits c.toNat ++ ['\x7d']

/-- A text between the given quotes. -/
def enclose (quote : Char) (text : List Char) : String :=
  String.ofList (quote :: text.flatMap (escape quote) ++ [quote])

end Quoted

/-- A text in double quotes. -/
def quoteText (text : List Char) : String := Quoted.enclose '"' text

/-- A character in single quotes. -/
def quoteChar (c : Char) : String := Quoted.enclose '\'' [c]

end Packrat

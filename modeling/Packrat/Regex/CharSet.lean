/-
Sets of characters as patterns write them: ranges and named classes, combined by the operations on
sets. Letter case, digits and word characters are those of ASCII; blanks are all characters of the
Unicode property White_Space.
-/

namespace Packrat.Regex

/-- A class that patterns name by one letter. -/
inductive NamedClass where
  | digit
  | word
  | blank
deriving DecidableEq

/-- Has the property White_Space. -/
def isBlank (c : Char) : Bool :=
  let n := c.toNat
  9 ≤ n && n ≤ 13 || n = 0x20 || n = 0x85 || n = 0xa0 || n = 0x1680 || 0x2000 ≤ n && n ≤ 0x200a ||
    n = 0x2028 || n = 0x2029 || n = 0x202f || n = 0x205f || n = 0x3000

/-- A letter, a digit or an underscore. -/
def isWord (c : Char) : Bool := c.isAlphanum || c = '_'

/-- The characters of a named class. -/
def NamedClass.contains : NamedClass → Char → Bool
  | .digit, c => c.isDigit
  | .word, c => isWord c
  | .blank, c => isBlank c

/-- A set of characters. -/
inductive CharSet where
  | empty
  | range (first last : Char)
  | named (cls : NamedClass)
  | union (a b : CharSet)
  | inter (a b : CharSet)
  | diff (a b : CharSet)
  /-- The characters of exactly one of two sets. -/
  | symmDiff (a b : CharSet)
  | complement (a : CharSet)
  /-- The characters of a set and the same letters in the other case. -/
  | anyCase (a : CharSet)
deriving DecidableEq

namespace CharSet

/-- One character and no other. -/
def single (c : Char) : CharSet := .range c c

/-- All characters. -/
def all : CharSet := .complement .empty

/-- The characters of some ranges. -/
def ofRanges (ranges : List (Char × Char)) : CharSet :=
  ranges.foldl (fun set (first, last) => .union set (.range first last)) .empty

/-- The same letter in the other case. -/
def otherCase (c : Char) : Char := if c.isUpper then c.toLower else c.toUpper

/-- Whether a set holds a character. -/
def contains : CharSet → Char → Bool
  | .empty, _ => false
  | .range first last, c => first ≤ c && c ≤ last
  | .named cls, c => cls.contains c
  | .union a b, c => a.contains c || b.contains c
  | .inter a b, c => a.contains c && b.contains c
  | .diff a b, c => a.contains c && !b.contains c
  | .symmDiff a b, c => a.contains c != b.contains c
  | .complement a, c => !a.contains c
  | .anyCase a, c => a.contains c || a.contains (otherCase c)

/-- Disregards case in the operands of the operations that could tell cases apart, before they are
combined: leaving out a letter then leaves out both its cases. -/
def caselessOperands : CharSet → CharSet
  | .empty => .empty
  | .range first last => .range first last
  | .named cls => .named cls
  | .union a b => .union a.caselessOperands b.caselessOperands
  | .inter a b => .inter (.anyCase a.caselessOperands) (.anyCase b.caselessOperands)
  | .diff a b => .diff (.anyCase a.caselessOperands) (.anyCase b.caselessOperands)
  | .symmDiff a b => .symmDiff (.anyCase a.caselessOperands) (.anyCase b.caselessOperands)
  | .complement a => .complement (.anyCase a.caselessOperands)
  | .anyCase a => .anyCase a.caselessOperands

/-- The set that is written the same way where upper and lower case letters count as the same. -/
def caseless (s : CharSet) : CharSet := .anyCase s.caselessOperands

end CharSet

end Packrat.Regex

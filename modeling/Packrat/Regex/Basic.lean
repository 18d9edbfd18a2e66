/-
Regular expressions: what a pattern says once its flags and group numbers are worked out.
-/
import Packrat.Regex.CharSet

namespace Packrat

/-- A condition on the place between two characters. -/
inductive Regex.Check where
  | textStart
  | textEnd
  | lineStart
  | lineEnd
  | wordEdge
  | noWordEdge
deriving DecidableEq

/-- A regular expression. -/
inductive Regex where
  | empty
  | one (set : Regex.CharSet)
  | check (condition : Regex.Check)
  | cat (first second : Regex)
  | alt (preferred other : Regex)
  /-- Remembers what its body matched, under a number. -/
  | group (index : Nat) (body : Regex)
  /-- At least `min` and at most `max` times, as often as possible when greedy. -/
  | times (body : Regex) (min : Nat) (max : Option Nat) (greedy : Bool)
deriving DecidableEq

namespace Regex

/-- All of a list, one after the other. -/
def catAll : List Regex → Regex
  | [] => .empty
  | [r] => r
  | r :: rest => .cat r (catAll rest)

/-- Any of a list, earlier ones first. -/
def altAll : List Regex → Regex
  | [] => .empty
  | [r] => r
  | r :: rest => .alt r (altAll rest)

/-- One more than the greatest group number; group 0 is the whole match. -/
def groupCount : Regex → Nat
  | .empty | .one _ | .check _ => 1
  | .cat a b | .alt a b => max a.groupCount b.groupCount
  | .group i a => max (i + 1) a.groupCount
  | .times a _ _ _ => a.groupCount

/-- A repetition; what is repeated zero times is nothing, and its groups do not count. -/
def repetition (body : Regex) (min : Nat) (max : Option Nat) (greedy : Bool) : Regex :=
  if max = some 0 then .empty else .times body min max greedy

end Regex

end Packrat

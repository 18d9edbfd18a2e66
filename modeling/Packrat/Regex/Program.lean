/-
Programs for matching. A regular expression is compiled to numbered instructions, each of which
names the instructions that follow it, preferred ones first.
-/
import Packrat.Regex.Basic

namespace Packrat.Regex

/-- The least number of characters that a match takes. -/
def minLength : Regex → Nat
  | .empty | .check _ => 0
  | .one _ => 1
  | .cat a b => a.minLength + b.minLength
  | .alt a b => min a.minLength b.minLength
  | .group _ a => a.minLength
  | .times a n _ _ => n * a.minLength

/-- An instruction. -/
inductive Instruction where
  | one (set : CharSet) (next : Nat)
  | check (condition : Check) (next : Nat)
  /-- Goes on in several ways. -/
  | split (branches : List Nat)
  /-- Marks the place where a group begins or ends. -/
  | mark (slot : Nat) (next : Nat)
  | accept

/-- How many ways there are to go on. -/
def Instruction.width : Instruction → Nat
  | .split branches => branches.length
  | .one .. | .check .. | .mark .. => 1
  | .accept => 0

/-- Instructions by their numbers. -/
abbrev Code := Array Instruction

namespace Code

/-- Adds an instruction; gives its number. -/
def emit (code : Code) (instruction : Instruction) : Code × Nat := (code.push instruction, code.size)

/-- What compiles one part: given the code so far and the instruction that follows the part, the
code with the part and the part's first instruction. -/
abbrev Part := Code → Nat → Code × Nat

/-- The part itself or what follows it. -/
def choose (greedy : Bool) (part next : Nat) : Instruction :=
  .split (if greedy then [part, next] else [next, part])

/-- A part so many times in a row. -/
def copies (part : Part) : Nat → Part
  | 0, code, next => (code, next)
  | n + 1, code, next =>
    let (code, next) := copies part n code next
    part code next

/-- A part up to so many times. -/
def upTo (part : Part) (greedy : Bool) : Nat → Part
  | 0, code, next => (code, next)
  | n + 1, code, next =>
    let (code, inner) := upTo part greedy n code next
    let (code, first) := part code inner
    code.emit (choose greedy first next)

/-- A part once or more often: gives the part's first instruction and the loop instruction, which
goes back to it or on. -/
def loop (part : Part) (greedy : Bool) (code : Code) (next : Nat) : Code × Nat × Nat :=
  let (code, again) := code.emit .accept
  let (code, first) := part code again
  (code.setIfInBounds again (choose greedy first next), first, again)

/-- A part any number of times. If the part can be empty, coming back to it does not count as
entering it, so that one empty round is possible and a second one is not. -/
def anyTimes (part : Part) (greedy canBeEmpty : Bool) : Part := fun code next =>
  let (code, first, again) := loop part greedy code next
  if canBeEmpty then code.emit (choose greedy first next) else (code, again)

/-- A part within bounds. -/
def times (part : Part) (min : Nat) (max : Option Nat) (greedy canBeEmpty : Bool) : Part := fun code next =>
  match max, min with
  | some max, _ =>
    let (code, next) := upTo part greedy (max - min) code next
    copies part min code next
  | none, 0 => anyTimes part greedy canBeEmpty code next
  | none, n + 1 =>
    let (code, first, _) := loop part greedy code next
    copies part n code first

end Code

/-- Compiles a regular expression. -/
def compile : Regex → Code.Part
  | .empty, code, next => (code, next)
  | .one set, code, next => code.emit (.one set next)
  | .check condition, code, next => code.emit (.check condition next)
  | .cat a b, code, next =>
    let (code, second) := b.compile code next
    a.compile code second
  | .alt a b, code, next =>
    let (code, preferred) := a.compile code next
    let (code, other) := b.compile code next
    code.emit (.split [preferred, other])
  | .group index a, code, next =>
    let (code, stop) := code.emit (.mark (2 * index + 1) next)
    let (code, body) := a.compile code stop
    code.emit (.mark (2 * index) body)
  | .times a min max greedy, code, next =>
    Code.times a.compile min max greedy (a.minLength = 0) code next

/-- Whether every match is sure to begin where the text does. -/
def startsText : Regex → Bool
  | .check condition => condition = .textStart
  | .empty | .one _ => false
  | .cat a _ => a.startsText
  | .alt a b => a.startsText && b.startsText
  | .group _ a => a.startsText
  | .times a min _ _ => 0 < min && a.startsText

/-- The instructions of a regular expression. -/
structure Program where
  code : Code
  start : Nat
  groupCount : Nat
  /-- How many ways there are to go on, over all instructions. -/
  width : Nat
  /-- Whether every match is sure to begin where the text does. -/
  startsText : Bool

/-- The program of a regular expression; the whole match is group 0. -/
def program (r : Regex) : Program :=
  let (code, accept) := Code.emit #[] .accept
  let (code, start) := (Regex.group 0 r).compile code accept
  ⟨code, start, r.groupCount, (code.map Instruction.width).foldl (· + ·) 0, r.startsText⟩

end Packrat.Regex

/-
Matching with priorities. Threads of a program are tried depth first, preferred branches before
others, and the first thread that accepts is the match. A thread that comes to an instruction at a
place where an earlier thread has been is dropped: whatever lies ahead of it has been tried already,
or is about to be tried with higher priority. So every instruction is carried out at most once at
every place, and a loop that takes no text ends.
-/
import Std.Data.TreeSet.Basic
import Packrat.Regex.Program

namespace Packrat.Regex

/-- A match in progress. -/
structure Thread where
  /-- The number of the instruction to carry out. -/
  label : Nat
  /-- The character before the current place. -/
  before : Option Char
  rest : List Char
  /-- How many characters of the text precede the current place. -/
  offset : Nat
  /-- Offsets at which groups began and ended, latest first. -/
  marks : List (Nat × Nat)

/-- Instructions with offsets where they have been carried out. -/
abbrev Visits := Std.TreeSet (Nat × Nat) (compareLex (compareOn Prod.fst) (compareOn Prod.snd))

/-- Whether a condition holds at the place of a thread. -/
def Check.holds (t : Thread) : Check → Bool
  | .textStart => t.before.isNone
  | .textEnd => t.rest.isEmpty
  | .lineStart => t.before.all (· = '\n')
  | .lineEnd => t.rest.head?.all (· = '\n')
  | .wordEdge => t.before.any isWord != t.rest.head?.any isWord
  | .noWordEdge => t.before.any isWord == t.rest.head?.any isWord

/-- The threads that an instruction leads to, preferred ones first. -/
def Instruction.step (t : Thread) : Instruction → List Thread
  | .one set next =>
    match t.rest with
    | c :: rest =>
      if set.contains c then
        [{ t with label := next, before := some c, rest, offset := t.offset + 1 }]
      else []
    | [] => []
  | .check condition next => if condition.holds t then [{ t with label := next }] else []
  | .split branches => branches.map fun label => { t with label }
  | .mark slot next => [{ t with label := next, marks := (slot, t.offset) :: t.marks }]
  | .accept => []

namespace Program

/-- How many threads a search can come by in a text of the given length. -/
def fuel (p : Program) (length : Nat) : Nat := (p.width + 1) * (length + 1)

/-- The first of some threads that comes to accept. `seen` holds the instructions that have been
carried out, with the offsets where that was. -/
def run (p : Program) : (fuel : Nat) → List Thread → (seen : Visits) → Option Thread
  | 0, _, _ => none
  | _ + 1, [], _ => none
  | fuel + 1, t :: others, seen =>
    if seen.contains (t.label, t.offset) then p.run fuel others seen
    else
      match p.code[t.label]? with
      | none => p.run fuel others seen
      | some .accept => some t
      | some instruction => p.run fuel (instruction.step t ++ others) (seen.insert (t.label, t.offset))

/-- The text of a group in a match. -/
def groupText (text : List Char) (t : Thread) (index : Nat) : Option (List Char) := do
  let start ← t.marks.lookup (2 * index)
  let stop ← t.marks.lookup (2 * index + 1)
  return (text.drop start).take (stop - start)

/-- The match in a text that starts at a place: the texts of its groups, group 0 being the whole
match. -/
def matchAt (p : Program) (text : List Char) (before : Option Char) (offset : Nat) (rest : List Char) :
    Option (List (Option (List Char))) :=
  (p.run (p.fuel rest.length) [⟨p.start, before, rest, offset, []⟩] ∅).map fun t =>
    (List.range p.groupCount).map (groupText text t)

/-- The leftmost match in a text that starts at a place or after it. -/
def searchFrom (p : Program) (text : List Char) :
    Option Char → Nat → (rest : List Char) → Option (List (Option (List Char)))
  | before, offset, [] => p.matchAt text before offset []
  | before, offset, c :: rest =>
    (p.matchAt text before offset (c :: rest)).or (p.searchFrom text (some c) (offset + 1) rest)

/-- The leftmost match in a text. Where every match begins with the text, no other place is tried. -/
def search (p : Program) (text : List Char) : Option (List (Option (List Char))) :=
  if p.startsText then p.matchAt text none 0 text else p.searchFrom text none 0 text

end Program

end Packrat.Regex

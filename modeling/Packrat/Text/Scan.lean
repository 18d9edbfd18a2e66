/-
Reading a text character by character while keeping track of the location reached. A carriage
return and a line feed each end a line, except that a line feed right after a carriage return
belongs to the break that the carriage return began.
-/
import Packrat.Text.Location

namespace Packrat

/-- What a reader knows between two characters: the one it read last and where it stands. -/
structure Scan where
  previous : Option Char
  location : Location
deriving DecidableEq

namespace Scan

/-- A reader that has read nothing yet. -/
def start (location : Location) : Scan := ⟨none, location⟩

/-- Reads one character. -/
def step (s : Scan) (c : Char) : Scan where
  previous := some c
  location :=
    if c = '\r' ∨ c = '\n' ∧ s.previous ≠ some '\r' then ⟨s.location.line + 1, 0⟩
    else if c = '\n' then s.location
    else ⟨s.location.line, s.location.column + 1⟩

/-- Reads a whole text. -/
def run (s : Scan) (text : List Char) : Scan := text.foldl step s

/-- The states before and after each character of a text. -/
def trail (s : Scan) : List Char → List Scan
  | [] => [s]
  | c :: rest => s :: (s.step c).trail rest

@[simp] theorem run_nil (s : Scan) : s.run [] = s := rfl

@[simp] theorem run_cons (s : Scan) (c : Char) (text : List Char) :
    s.run (c :: text) = (s.step c).run text := rfl

theorem run_append (s : Scan) (a b : List Char) : s.run (a ++ b) = (s.run a).run b :=
  List.foldl_append

end Scan

/-- The location reached after a text that begins at the given one. -/
def Location.after (location : Location) (text : List Char) : Location :=
  ((Scan.start location).run text).location

end Packrat

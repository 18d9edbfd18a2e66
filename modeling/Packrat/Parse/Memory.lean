/-
Remembered verdicts. They are kept by location, since few expressions are tried at any one place. At
most one verdict on each question is kept, the latest.
-/
import Std.Data.TreeMap.Lemmas
import Packrat.Parse.Attempt

namespace Packrat

/-- Questions with the verdicts on them, by location. -/
structure Memory where
  cells : Std.TreeMap Location (List (Question × Verdict))

namespace Memory

/-- Nothing is remembered. -/
def empty : Memory := ⟨∅⟩

/-- What is remembered for one location. -/
def cell (m : Memory) (location : Location) : List (Question × Verdict) := m.cells.getD location []

/-- The verdict on a question, if one is remembered. -/
def find? (m : Memory) (q : Question) : Option Verdict := (m.cell q.location).lookup q

/-- Remembers a verdict in place of an earlier one on the same question. -/
def insert (m : Memory) (q : Question) (verdict : Verdict) : Memory :=
  ⟨m.cells.insert q.location ((q, verdict) :: (m.cell q.location).filter (·.1 != q))⟩

/-- How many questions have a verdict. -/
def size (m : Memory) : Nat := m.cells.foldl (fun count _ cell => count + cell.length) 0

@[simp] theorem cell_empty (location : Location) : empty.cell location = [] := by
  simp [empty, cell]

/-- Remembering a verdict changes what is remembered for one location. -/
theorem cell_insert (m : Memory) (q : Question) (verdict : Verdict) (location : Location) :
    (m.insert q verdict).cell location =
      if q.location = location then (q, verdict) :: (m.cell location).filter (·.1 != q)
      else m.cell location := by
  unfold insert cell
  rw [Std.TreeMap.getD_insert]
  by_cases h : q.location = location
  · simp [h]
  · simp [h]

end Memory

end Packrat

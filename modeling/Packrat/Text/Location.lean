/-
Locations in a text: zero-based lines and columns, where columns count code points. Locations are
ordered line first, so of two places in one text the later one has the greater location.
-/

namespace Packrat

/-- A zero-based line and column. Neither is bounded, where a program counts in machine words. A text is too short for the
place behind it to get out of their range, unless it is counted from a location close to its end. -/
structure Location where
  line : Nat
  column : Nat
deriving DecidableEq, Inhabited

namespace Location

/-- The place where every text begins. -/
def origin : Location := ⟨0, 0⟩

instance : LE Location := ⟨fun a b => a.line < b.line ∨ a.line = b.line ∧ a.column ≤ b.column⟩

instance : LT Location := ⟨fun a b => a.line < b.line ∨ a.line = b.line ∧ a.column < b.column⟩

theorem le_def {a b : Location} :
    a ≤ b ↔ a.line < b.line ∨ a.line = b.line ∧ a.column ≤ b.column := Iff.rfl

theorem lt_def {a b : Location} :
    a < b ↔ a.line < b.line ∨ a.line = b.line ∧ a.column < b.column := Iff.rfl

instance (a b : Location) : Decidable (a ≤ b) :=
  inferInstanceAs (Decidable (a.line < b.line ∨ a.line = b.line ∧ a.column ≤ b.column))

instance (a b : Location) : Decidable (a < b) :=
  inferInstanceAs (Decidable (a.line < b.line ∨ a.line = b.line ∧ a.column < b.column))

instance : Ord Location := ⟨compareLex (compareOn line) (compareOn column)⟩

/-- Whichever of two locations lies further into the text. -/
def further (a b : Location) : Location := if a ≤ b then b else a

/-- Locations are shown one-based, the way editors number lines. -/
def display (l : Location) : String := toString (l.line + 1) ++ ":" ++ toString (l.column + 1)

/-! ## The order -/

theorem ext_iff' {a b : Location} : a = b ↔ a.line = b.line ∧ a.column = b.column := by
  cases a; cases b; simp

@[simp] theorem le_refl (a : Location) : a ≤ a := by simp [le_def]

theorem le_trans {a b c : Location} (h : a ≤ b) (k : b ≤ c) : a ≤ c := by
  rw [le_def] at *; omega

theorem le_antisymm {a b : Location} (h : a ≤ b) (k : b ≤ a) : a = b := by
  rw [le_def] at *; rw [ext_iff']; omega

theorem le_total (a b : Location) : a ≤ b ∨ b ≤ a := by
  rw [le_def, le_def]; omega

theorem not_le {a b : Location} : ¬ a ≤ b ↔ b < a := by
  rw [le_def, lt_def]; omega

theorem not_lt {a b : Location} : ¬ a < b ↔ b ≤ a := by
  rw [le_def, lt_def]; omega

instance : Std.TransOrd Location :=
  inferInstanceAs (Std.TransCmp (compareLex (compareOn line) (compareOn column)))

instance : Std.LawfulEqOrd Location where
  eq_of_compare {a b} h := by
    have h' : (compare a.line b.line).then (compare a.column b.column) = .eq := h
    rw [Ordering.then_eq_eq] at h'
    exact ext_iff'.2 ⟨Std.LawfulEqOrd.eq_of_compare h'.1, Std.LawfulEqOrd.eq_of_compare h'.2⟩

/-- The further of two locations lies before neither. -/
theorem le_further (a b : Location) : a ≤ further a b ∧ b ≤ further a b := by
  unfold further
  split
  · next h => exact ⟨h, le_refl b⟩
  · next h => exact ⟨le_refl a, (le_total a b).resolve_left h⟩

end Location

end Packrat

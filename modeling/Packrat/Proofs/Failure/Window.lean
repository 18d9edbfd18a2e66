/-
The window of lines that a failure is shown in. It reaches as many lines up and down as asked for, as far
as there are lines. The number of its last line is a sum of machine words: where that is no word, the
lines are there all the same, but none is shown.
-/
import Mathlib.Data.List.Basic
import Packrat.Failure.Show

namespace Packrat

variable {source : List Char} {line context : Nat} {shown : List (Nat × List Char)}

/-! ## The lines around a line -/

theorem linesAround_eq_none_iff : linesAround source line context = none ↔ (splitLines source).length ≤ line := by
  rcases Nat.lt_or_ge line (splitLines source).length with h | h
  · exact iff_of_false (by simp [linesAround, h]) (Nat.not_le.2 h)
  · exact iff_of_true (if_pos h) h

theorem lt_of_linesAround (h : linesAround source line context = some shown) : line < (splitLines source).length :=
  Nat.lt_of_not_le fun hle => by simp [linesAround_eq_none_iff.2 hle] at h

/-- The lines are those from the beginning of the window to its end or to the last line. -/
theorem linesAround_eq_some (h : linesAround source line context = some shown) :
    shown = (List.range' (line - context) (min (line + context) ((splitLines source).length - 1) + 1 -
      (line - context))).map fun n => (n, (splitLines source).getD n []) :=
  (Option.some.inj ((if_neg (Nat.not_le.2 (lt_of_linesAround h))).symm.trans h)).symm

/-- The lines have consecutive numbers. -/
theorem linesAround_consecutive (h : linesAround source line context = some shown) :
    ∃ first count, shown.map Prod.fst = List.range' first count := by
  rw [linesAround_eq_some h, List.map_map]
  exact ⟨_, _, List.map_id _⟩

/-- They are all lines of the source that are in the window. -/
theorem mem_linesAround_iff (h : linesAround source line context = some shown) {n : Nat} {text : List Char} :
    (n, text) ∈ shown ↔ (splitLines source)[n]? = some text ∧ line - context ≤ n ∧ n ≤ line + context := by
  have hline := lt_of_linesAround h
  have hbounds : n ∈ List.range' (line - context)
      (min (line + context) ((splitLines source).length - 1) + 1 - (line - context)) ↔
      n < (splitLines source).length ∧ line - context ≤ n ∧ n ≤ line + context := by
    rw [List.mem_range'_1]
    omega
  rw [linesAround_eq_some h, List.mem_map]
  constructor
  · rintro ⟨m, hm, he⟩
    obtain ⟨rfl, rfl⟩ := Prod.mk.inj he
    obtain ⟨hlt, hwindow⟩ := hbounds.1 hm
    exact ⟨by simp [hlt], hwindow⟩
  · rintro ⟨htext, hwindow⟩
    obtain ⟨hlt, rfl⟩ := List.getElem?_eq_some_iff.1 htext
    exact ⟨n, hbounds.2 ⟨hlt, hwindow⟩, by simp [hlt]⟩

/-- The line itself is among them. -/
theorem mem_linesAround_self (h : linesAround source line context = some shown) {text : List Char}
    (ht : (splitLines source)[line]? = some text) : (line, text) ∈ shown :=
  (mem_linesAround_iff h).2 ⟨ht, Nat.sub_le _ _, Nat.le_add_right _ _⟩

/-! ## The window of machine words -/

theorem windowAround_of_lt (h : line + context < lineNumberRange) :
    windowAround source line context = .ok (linesAround source line context) := by
  unfold windowAround
  cases linesAround source line context with
  | none => rfl
  | some shown => exact if_neg (Nat.not_le.2 h)

theorem windowAround_eq_none_iff : windowAround source line context = .ok none ↔ (splitLines source).length ≤ line := by
  rw [← @linesAround_eq_none_iff source line context]
  unfold windowAround
  cases linesAround source line context with
  | none => simp
  | some shown =>
    dsimp only
    split <;> simp

/-- Lines are shown where the sum is a word. -/
theorem windowAround_eq_some_iff : windowAround source line context = .ok (some shown) ↔
    linesAround source line context = some shown ∧ line + context < lineNumberRange := by
  unfold windowAround
  cases linesAround source line context with
  | none => simp
  | some lines =>
    dsimp only
    split
    · next h => simp [Nat.not_lt.2 h]
    · next h => simp [Nat.lt_of_not_le h]

theorem windowAround_eq_error_iff : windowAround source line context = .error .lineNumber ↔
    line < (splitLines source).length ∧ lineNumberRange ≤ line + context := by
  rcases Nat.lt_or_ge (line + context) lineNumberRange with h | h
  · simp [windowAround_of_lt h, Nat.not_le.2 h]
  · rw [← Nat.not_le, ← @linesAround_eq_none_iff source line context]
    unfold windowAround
    cases linesAround source line context with
    | none => simp
    | some shown => simp [h]

/-- There is nothing to show just when there is no such line, and the computation breaks off just when there is one but the
sum of the numbers is no word. Otherwise consecutive lines are shown: all from so many before to so many behind, the line
itself among them. -/
theorem windowAround_shows (source : List Char) (line context : Nat) :
    (windowAround source line context = .ok none ↔ (splitLines source).length ≤ line) ∧
      (windowAround source line context = .error .lineNumber ↔
        line < (splitLines source).length ∧ lineNumberRange ≤ line + context) ∧
      ∀ shown, windowAround source line context = .ok (some shown) →
        (∃ first count, shown.map Prod.fst = List.range' first count) ∧
        (∀ n text, (n, text) ∈ shown ↔
          (splitLines source)[n]? = some text ∧ (line : Int) - context ≤ n ∧ (n : Int) ≤ line + context) ∧
        ∃ text, (line, text) ∈ shown := by
  refine ⟨windowAround_eq_none_iff, windowAround_eq_error_iff, fun shown h => ?_⟩
  have hlines := (windowAround_eq_some_iff.1 h).1
  refine ⟨linesAround_consecutive hlines, fun n text => ?_, ?_⟩
  · rw [mem_linesAround_iff hlines]
    exact and_congr_right fun _ => by omega
  · have hline := lt_of_linesAround hlines
    exact ⟨(splitLines source)[line], mem_linesAround_self hlines (List.getElem?_eq_getElem hline)⟩

example : windowAround ['a', '\n', 'b'] 1 (lineNumberRange - 2) = .ok (some [(0, ['a']), (1, ['b'])]) := by
  decide

/-- Around the second of two lines as many are asked for as there can be, and not even the line itself is shown. -/
theorem windowAround_misses :
    let source := ['a', '\n', 'b']
    let line := 1
    let context := lineNumberRange - 1
    context < lineNumberRange ∧ line < (splitLines source).length ∧
      windowAround source line context = .error .lineNumber ∧
      ¬ ∃ shown text, windowAround source line context = .ok (some shown) ∧ (line, text) ∈ shown := by
  intro source line context
  have hbreaks : windowAround source line context = .error .lineNumber := by decide
  refine ⟨by decide, by decide, hbreaks, ?_⟩
  rintro ⟨shown, text, h, -⟩
  cases hbreaks.symm.trans h

end Packrat

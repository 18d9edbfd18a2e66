/-
Lines of a text and the stretch of text between two locations. A line ends with a carriage return,
a line feed, or a carriage return followed by a line feed, and its break belongs to it.
-/
import Packrat.Text.Location

namespace Packrat

/-- The first line of a text with its break, and what follows it; none if the text has no break. -/
def splitLine : List Char → Option (List Char × List Char)
  | [] => none
  | '\r' :: '\n' :: rest => some (['\r', '\n'], rest)
  | c :: rest =>
    if c = '\r' ∨ c = '\n' then some ([c], rest)
    else (splitLine rest).map fun (line, after) => (c :: line, after)

/-- The lines of a text without their breaks; what follows the last break is a line too. -/
def splitLines : List Char → List (List Char)
  | [] => [[]]
  | '\r' :: '\n' :: rest => [] :: splitLines rest
  | c :: rest =>
    if c = '\r' ∨ c = '\n' then [] :: splitLines rest
    else match splitLines rest with
      | [] => [[c]]
      | line :: more => (c :: line) :: more

/-- The given number of whole lines of a text and then the given number of characters; all of the
text if it has fewer line breaks. -/
def takeLines : Nat → Nat → List Char → List Char
  | 0, column, text => text.take column
  | count + 1, column, text =>
    match splitLine text with
    | none => text
    | some (line, rest) => line ++ takeLines count column rest

/-- The beginning of `rest`, a text that begins at `start`, that ends at `stop`: whole lines and
then a number of columns when `stop` is on a later line, and the missing columns otherwise. -/
def between (rest : List Char) (start stop : Location) : List Char :=
  if stop ≤ start then []
  else if start.line < stop.line then takeLines (stop.line - start.line) stop.column rest
  else rest.take (stop.column - start.column)

/-! ## Parts of a text -/

/-- Splitting off a line loses nothing. -/
theorem splitLine_eq_some {text line rest : List Char} (h : splitLine text = some (line, rest)) :
    text = line ++ rest := by
  fun_induction splitLine text generalizing line rest with
  | case1 => simp at h
  | case2 rest' =>
    simp only [Option.some.injEq, Prod.mk.injEq] at h
    rw [← h.1, ← h.2]; rfl
  | case3 c text _ hc =>
    simp only [Option.some.injEq, Prod.mk.injEq] at h
    rw [← h.1, ← h.2]; rfl
  | case4 c text _ hc ih =>
    obtain ⟨⟨l, r⟩, hl, he⟩ := Option.map_eq_some_iff.1 h
    simp only [Prod.mk.injEq] at he
    rw [ih hl, ← he.1, ← he.2, List.cons_append]

theorem takeLines_prefix (count column : Nat) (text : List Char) :
    takeLines count column text <+: text := by
  induction count generalizing text with
  | zero => exact List.take_prefix _ _
  | succ count ih =>
    unfold takeLines
    split
    · exact List.prefix_refl _
    · next line rest h =>
      rw [splitLine_eq_some h]
      exact (List.prefix_append_right_inj line).2 (ih rest)

/-- What lies between two locations is a beginning of the remaining text. -/
theorem between_prefix (rest : List Char) (start stop : Location) :
    between rest start stop <+: rest := by
  unfold between
  split
  · exact List.nil_prefix
  · split
    · exact takeLines_prefix _ _ _
    · exact List.take_prefix _ _

end Packrat

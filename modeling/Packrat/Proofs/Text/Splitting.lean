/-
Splitting a text into lines, against counting lines in reading. The lines and the breaks between them
make up the text. There is one line for each break that reading counts and one for the end, and wherever
reading has got to, the line of that number begins with what stands between the break before the place
and the place. This holds between the two characters of a break as well.
-/
import Packrat.Proofs.Text.Rows

namespace Packrat

/-- A text is its last line, or a line with a break and then what follows. -/
@[elab_as_elim]
theorem line_induction {motive : List Char → Prop} (last : ∀ text, splitLine text = none → motive text)
    (next : ∀ text line rest, splitLine text = some (line, rest) → motive rest → motive text) (text : List Char) :
    motive text :=
  match h : splitLine text with
  | none => last text h
  | some (line, rest) => next text line rest h (line_induction last next rest)
termination_by text.length
decreasing_by exact length_lt_of_splitLine h

theorem splitLines_of_splitLine_eq_none {text : List Char} (h : splitLine text = none) : splitLines text = [text] := by
  have hlines : splitLines (text ++ []) = [text ++ []] := splitLines_append_of_none h rfl
  rwa [List.append_nil] at hlines

/-! ## The lines of a text -/

/-- Reading counts the lines that splitting gives. -/
theorem length_splitLines (text : List Char) (line : Nat) :
    (Location.after ⟨line, 0⟩ text).line + 1 = line + (splitLines text).length := by
  induction text using line_induction generalizing line with
  | last text h =>
    rw [after_of_splitLine_eq_none h, splitLines_of_splitLine_eq_none h]
    rfl
  | next text first rest h ih =>
    obtain ⟨_, _, -, -, -, hlines⟩ := splitLines_of_splitLine h
    rw [after_eq_of_splitLine h, ih, hlines, List.length_cons]
    exact Nat.succ_add_eq_add_succ line _

/-- Lines are without breaks. -/
theorem unbroken_of_mem_splitLines (text : List Char) : ∀ line ∈ splitLines text, ∀ c ∈ line, ¬ IsBreak c := by
  induction text using line_induction with
  | last text h =>
    rw [splitLines_of_splitLine_eq_none h]
    exact List.forall_mem_singleton.2 (unbroken_of_splitLine_eq_none h)
  | next text first rest h ih =>
    obtain ⟨_, _, -, -, hunbroken, hlines⟩ := splitLines_of_splitLine h
    rw [hlines]
    exact List.forall_mem_cons.2 ⟨hunbroken, ih⟩

/-- Lines, each with the break that ends it; the last one has none. -/
def rejoin (lines breaks : List (List Char)) : List Char := (List.zipWith (· ++ ·) lines (breaks ++ [[]])).flatten

theorem rejoin_cons (line terminator : List Char) (lines breaks : List (List Char)) :
    rejoin (line :: lines) (terminator :: breaks) = line ++ terminator ++ rejoin lines breaks := rfl

/-- With their breaks, the lines give the text back. -/
theorem rejoin_splitLines (text : List Char) : ∃ breaks, breaks.length + 1 = (splitLines text).length ∧
    (∀ b ∈ breaks, LineBreak b) ∧ rejoin (splitLines text) breaks = text := by
  induction text using line_induction with
  | last text h =>
    refine ⟨[], ?_, List.forall_mem_nil _, ?_⟩ <;> simp [splitLines_of_splitLine_eq_none h, rejoin]
  | next text first rest h ih =>
    obtain ⟨line, terminator, hfirst, hbreak, -, hlines⟩ := splitLines_of_splitLine h
    obtain ⟨breaks, hlength, hbreaks, hrejoin⟩ := ih
    refine ⟨terminator :: breaks, ?_, List.forall_mem_cons.2 ⟨hbreak, hbreaks⟩, ?_⟩
    · rw [hlines, List.length_cons, List.length_cons, hlength]
    · rw [hlines, rejoin_cons, hrejoin, ← hfirst, ← splitLine_eq_some h]

/-! ## Where reading gets to -/

/-- The line whose number reading has reached begins with as much text as the column says, and that is what
was read last. -/
theorem exists_line_of_prefix {text before : List Char} (h : before <+: text) :
    ∃ line, (splitLines text)[(Location.origin.after before).line]? = some line ∧
      (Location.origin.after before).column ≤ line.length ∧
      line.take (Location.origin.after before).column <:+ before := by
  obtain ⟨rest, rfl⟩ := h
  by_cases hb : PartsBreak before rest
  -- within a break, the line is the one that begins behind the break
  · obtain ⟨more, rfl⟩ := hb.eq_cons
    have hwhole : ¬ PartsBreak (before ++ ['\n']) more := not_partsBreak_lineFeed
    obtain ⟨left, right, -, -, -, hlisted⟩ := exists_row 0 hwhole
    have hafter : Location.after ⟨0, 0⟩ (before ++ ['\n']) = Location.origin.after before :=
      Location.after_append_lineFeed hb.1
    rw [hafter, List.append_assoc, List.singleton_append] at hlisted
    refine ⟨left ++ right, hlisted, ?_, ?_⟩ <;> rw [Location.column_after_of_getLast? hb.1]
    · exact Nat.zero_le _
    · exact List.nil_suffix
  · obtain ⟨left, right, ⟨-, ⟨above, habove, -⟩, -⟩, hcolumn, -, hlisted⟩ := exists_row 0 hb
    have hcolumn' : left.length = (Location.origin.after before).column := hcolumn
    refine ⟨left ++ right, hlisted, ?_, ?_⟩ <;> rw [← hcolumn']
    · simp
    · rw [List.take_left']
      · exact ⟨above, habove.symm⟩
      · rfl

/-- Splitting a text into lines and counting lines in reading agree. -/
theorem splitLines_agrees (source : List Char) :
    (splitLines source).length = (Location.origin.after source).line + 1 ∧
      (∀ line ∈ splitLines source, '\r' ∉ line ∧ '\n' ∉ line) ∧
      (∃ breaks, breaks.length + 1 = (splitLines source).length ∧ (∀ b ∈ breaks, LineBreak b) ∧
        rejoin (splitLines source) breaks = source) ∧
      ∀ before, before <+: source → ∃ line, (splitLines source)[(Location.origin.after before).line]? = some line ∧
        (Location.origin.after before).column ≤ line.length ∧
        line.take (Location.origin.after before).column <:+ before := by
  refine ⟨?_, fun line hline => ⟨fun hr => ?_, fun hn => ?_⟩, rejoin_splitLines source, fun _ => exists_line_of_prefix⟩
  · have hcount := length_splitLines source 0
    rw [Nat.zero_add] at hcount
    exact hcount.symm
  · exact unbroken_of_mem_splitLines source line hline _ hr (.inl rfl)
  · exact unbroken_of_mem_splitLines source line hline _ hn (.inr rfl)

/-- Within a break, reading is on the line behind it already. -/
example : splitLines ['a', '\r', '\n', 'b'] = [['a'], ['b']] ∧ Location.origin.after ['a', '\r'] = ⟨1, 0⟩ := by decide

end Packrat

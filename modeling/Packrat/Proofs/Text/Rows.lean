/-
Lines of a text. The line on which a place of the text lies is what stands around the place up to the
nearest line breaks, or to where the text begins and ends. Lines and columns are counted in reading, and
lines are split off when a text is shown: both find the same line, and the column is how far along the
line the place is.
-/
import Packrat.Proofs.Text.Places

namespace Packrat

/-- The character ends a line or belongs to what does. -/
def IsBreak (c : Char) : Prop := c = '\r' ∨ c = '\n'

instance (c : Char) : Decidable (IsBreak c) := inferInstanceAs (Decidable (c = '\r' ∨ c = '\n'))

/-- Between two pieces of a text, what stands left and right of the place on its line. -/
structure Row (before rest left right : List Char) : Prop where
  unbroken : ∀ c ∈ left ++ right, ¬ IsBreak c
  begins : ∃ above, before = above ++ left ∧ ∀ c, above.getLast? = some c → IsBreak c
  ends : ∃ below, rest = right ++ below ∧ ∀ c, below.head? = some c → IsBreak c

/-! ## Splitting -/

theorem unbroken_of_splitLine_eq_none {text : List Char} (h : splitLine text = none) : ∀ c ∈ text, ¬ IsBreak c := by
  fun_induction splitLine text with
  | case1 => exact List.forall_mem_nil _
  | case2 => cases h
  | case3 => cases h
  | case4 c text _ hc ih => exact List.forall_mem_cons.2 ⟨hc, ih (Option.map_eq_none_iff.1 h)⟩

/-- The first line of a text stands before the first break. -/
theorem exists_splitLines (text : List Char) : ∃ right below more, text = right ++ below ∧
    splitLines text = right :: more ∧ (∀ c ∈ right, ¬ IsBreak c) ∧ ∀ c, below.head? = some c → IsBreak c := by
  fun_induction splitLines text with
  | case1 => exact ⟨[], [], [], rfl, rfl, List.forall_mem_nil _, nofun⟩
  | case2 rest => exact ⟨[], '\r' :: '\n' :: rest, _, rfl, rfl, List.forall_mem_nil _, by rintro _ ⟨⟩; exact .inl rfl⟩
  | case3 c rest _ hc =>
    refine ⟨[], c :: rest, _, rfl, rfl, List.forall_mem_nil _, ?_⟩
    rintro _ ⟨⟩
    exact hc
  | case4 c rest _ hc hnil ih =>
    obtain ⟨_, _, _, _, h, _⟩ := ih
    rw [h] at hnil
    cases hnil
  | case5 c rest _ hc line more hlines ih =>
    obtain ⟨right, below, more', rfl, h, hunbroken, hbelow⟩ := ih
    obtain ⟨rfl, rfl⟩ := List.cons.inj (hlines.symm.trans h)
    exact ⟨c :: line, below, more, rfl, rfl, List.forall_mem_cons.2 ⟨hc, hunbroken⟩, hbelow⟩

/-- Text without a break stands at the beginning of the first line. -/
theorem splitLines_append_of_none {text rest line : List Char} {more : List (List Char)} (h : splitLine text = none)
    (hr : splitLines rest = line :: more) : splitLines (text ++ rest) = (text ++ line) :: more := by
  fun_induction splitLine text with
  | case1 => exact hr
  | case2 => cases h
  | case3 => cases h
  | case4 c text hne hc ih =>
    rw [List.cons_append, splitLines, if_neg hc, ih (Option.map_eq_none_iff.1 h)]
    · rfl
    · rintro _ rfl _
      exact hc (.inl rfl)

/-- What ends a line. -/
inductive LineBreak : List Char → Prop
  | carriageReturn : LineBreak ['\r']
  | lineFeed : LineBreak ['\n']
  | both : LineBreak ['\r', '\n']

/-- A line is split off with its break, and the other lines follow. -/
theorem splitLines_of_splitLine {text line rest : List Char} (h : splitLine text = some (line, rest)) :
    ∃ first terminator, line = first ++ terminator ∧ LineBreak terminator ∧ (∀ c ∈ first, ¬ IsBreak c) ∧
      splitLines text = first :: splitLines rest := by
  fun_induction splitLine text generalizing line rest with
  | case1 => cases h
  | case2 rest' =>
    cases h
    exact ⟨[], _, rfl, .both, List.forall_mem_nil _, rfl⟩
  | case3 c text hne hc =>
    cases h
    refine ⟨[], [c], rfl, ?_, List.forall_mem_nil _, ?_⟩
    · rcases hc with rfl | rfl
      · exact .carriageReturn
      · exact .lineFeed
    · rw [splitLines, if_pos hc]
      exact hne
  | case4 c text hne hc ih =>
    obtain ⟨⟨l, r⟩, hl, he⟩ := Option.map_eq_some_iff.1 h
    cases he
    obtain ⟨first, terminator, rfl, hbreak, hunbroken, hlines⟩ := ih hl
    refine ⟨c :: first, terminator, rfl, hbreak, List.forall_mem_cons.2 ⟨hc, hunbroken⟩, ?_⟩
    rw [splitLines, if_neg hc, hlines]
    exact hne

/-- A line is taken with its break. -/
theorem isBreak_of_splitLine {text line rest : List Char} (h : splitLine text = some (line, rest)) :
    ∃ c, line.getLast? = some c ∧ IsBreak c := by
  obtain ⟨first, terminator, rfl, hbreak, -, -⟩ := splitLines_of_splitLine h
  cases hbreak with
  | carriageReturn => exact ⟨'\r', List.getLast?_concat, .inl rfl⟩
  | lineFeed => exact ⟨'\n', List.getLast?_concat, .inr rfl⟩
  | both => exact ⟨'\n', by simp, .inr rfl⟩

/-! ## The line of a place -/

/-- Where reading on from the beginning of a line gets to, a row ends there whose length so far is the column,
and it is among the lines of the text. -/
theorem exists_row {before rest : List Char} (line : Nat) (hb : ¬ PartsBreak before rest) : ∃ left right,
    Row before rest left right ∧ left.length = (Location.after ⟨line, 0⟩ before).column ∧
      line ≤ (Location.after ⟨line, 0⟩ before).line ∧
      (splitLines (before ++ rest))[(Location.after ⟨line, 0⟩ before).line - line]? = some (left ++ right) := by
  cases hs : splitLine before with
  | none =>
    obtain ⟨right, below, more, hrest, hlines, hunbroken, hbelow⟩ := exists_splitLines rest
    rw [after_of_splitLine_eq_none hs, splitLines_append_of_none hs hlines]
    refine ⟨before, right, ⟨?_, ⟨[], rfl, nofun⟩, ⟨below, hrest, hbelow⟩⟩, by simp, Nat.le_refl _, by simp⟩
    exact List.forall_mem_append.2 ⟨unbroken_of_splitLine_eq_none hs, hunbroken⟩
  | some p =>
    obtain ⟨first, others⟩ := p
    have hbefore := splitLine_eq_some hs
    have hlt := length_lt_of_splitLine hs
    have hafter : Location.after ⟨line, 0⟩ before = Location.after ⟨line + 1, 0⟩ others := after_eq_of_splitLine hs
    have hb' : ¬ PartsBreak others rest := fun ⟨h1, h2⟩ => hb ⟨by
      rw [hbefore, List.getLast?_append, h1]
      rfl, h2⟩
    obtain ⟨left, right, ⟨hunbroken, ⟨above, habove, hbegins⟩, hends⟩, hcolumn, hle, hlisted⟩ := exists_row (line + 1) hb'
    obtain ⟨row, -, -, -, -, hrow⟩ := splitLines_of_splitLine (splitLine_append hs hb)
    refine ⟨left, right, ⟨hunbroken, ⟨first ++ above, ?_, ?_⟩, hends⟩, by rw [hafter, hcolumn], by rw [hafter]; omega, ?_⟩
    · rw [List.append_assoc, ← habove, hbefore]
    · intro c hc
      cases hlast : above.getLast? with
      | some d =>
        rw [List.getLast?_append, hlast] at hc
        cases hc
        exact hbegins _ hlast
      | none =>
        obtain ⟨d, hd, hbreak⟩ := isBreak_of_splitLine hs
        rw [List.getLast?_append, hlast, hd] at hc
        cases hc
        exact hbreak
    · rw [hafter, hrow]
      obtain ⟨n, hn⟩ := Nat.exists_eq_add_of_le hle
      rw [hn] at hlisted ⊢
      rw [Nat.add_sub_cancel_left] at hlisted
      rwa [show line + 1 + n - line = n + 1 by omega, List.getElem?_cons_succ]
termination_by before.length

/-- Every location of a text is on one of its lines, and not further along than the line is long. -/
theorem Position.Place.row {input : List Char} {l : Location} (h : Position.Place input l) :
    ∃ before rest left right, input = before ++ rest ∧ l = Location.origin.after before ∧ Row before rest left right ∧
      left.length = l.column ∧ (splitLines input)[l.line]? = some (left ++ right) := by
  obtain ⟨p, ⟨before, hinput, -, hlocation, hb⟩, rfl⟩ := h
  obtain ⟨left, right, hrow, hcolumn, -, hlisted⟩ := exists_row 0 hb
  rw [← hinput] at hlisted
  refine ⟨before, p.rest input, left, right, hinput, hlocation, hrow, hcolumn.trans ?_, ?_⟩
  · rw [hlocation]
    rfl
  · rwa [hlocation]

end Packrat

/-
Places of a text that stands behind another text. The lines of the two together are those of the first one, then
those of the second; but the first line of the second goes on in the column where the first text ends. Order,
distances and what is read from a place on stay the same. So a text may be read in pieces, and it only matters
whether a piece ends within a line break.
-/
import Packrat.Proofs.Text.Places
import Packrat.Tree.Basic

namespace Packrat

/-! ## Locations -/

namespace Location

/-- Where a location is in a text that begins at the base. -/
def behind (l base : Location) : Location :=
  if l.line = 0 then ⟨base.line, base.column + l.column⟩ else ⟨base.line + l.line, l.column⟩

variable {a b base : Location}

@[simp] theorem line_behind (l base : Location) : (l.behind base).line = base.line + l.line := by
  unfold behind
  split
  · next h => simp [h]
  · rfl

@[simp] theorem origin_behind (base : Location) : origin.behind base = base := by simp [behind, origin]

theorem behind_le_behind : a.behind base ≤ b.behind base ↔ a ≤ b := by
  rw [le_def, le_def, line_behind, line_behind]
  by_cases h : a.line = b.line
  · -- on one line, both columns are shifted, or neither is
    have hcolumns : (a.behind base).column ≤ (b.behind base).column ↔ a.column ≤ b.column := by
      unfold behind
      rw [h]
      split
      · exact Nat.add_le_add_iff_left
      · rfl
    simp [h, hcolumns]
  · omega

theorem behind_inj : a.behind base = b.behind base ↔ a = b := by
  constructor
  · intro h
    have hle : a ≤ b := behind_le_behind.1 (Eq.subst h (le_refl _))
    have hge : b ≤ a := behind_le_behind.1 (Eq.subst h.symm (le_refl _))
    exact le_antisymm hle hge
  · exact fun h => h ▸ rfl

end Location

/-! ## Reading -/

/-- A reader keeps its distance from the base. -/
theorem Scan.step_behind (s : Scan) (base : Location) (c : Char) :
    (⟨s.previous, s.location.behind base⟩ : Scan).step c = ⟨(s.step c).previous, (s.step c).location.behind base⟩ := by
  unfold Scan.step
  simp only [Scan.mk.injEq, true_and]
  split
  · rw [Location.line_behind]
    simp [Location.behind, Nat.add_assoc]
  · split
    · rfl
    · unfold Location.behind
      simp only
      split <;> rfl

theorem Scan.run_behind (base : Location) : ∀ (s : Scan) (text : List Char),
    (⟨s.previous, s.location.behind base⟩ : Scan).run text = ⟨(s.run text).previous, (s.run text).location.behind base⟩
  | _, [] => rfl
  | s, c :: text => by
    rw [Scan.run_cons, Scan.run_cons, Scan.step_behind, Scan.run_behind base (s.step c) text]

theorem Location.after_behind (l base : Location) (text : List Char) : (l.behind base).after text = (l.after text).behind base :=
  congrArg Scan.location (Scan.run_behind base (.start l) text)

namespace Location

/-- From a line further down, reading gets a line further down. -/
theorem after_lineBelow (l : Location) (text : List Char) :
    after ⟨l.line + 1, l.column⟩ text = ⟨(l.after text).line + 1, (l.after text).column⟩ := by
  have hbelow : ∀ l : Location, l.behind ⟨1, 0⟩ = ⟨l.line + 1, l.column⟩ := by
    intro l
    unfold behind
    split
    · next h => simp [h]
    · rw [Nat.add_comm]
  rw [← hbelow, ← hbelow, after_behind]

/-- Reading a text in two pieces leads to where reading it as a whole leads, unless it is cut within a line break: a
break that is read in two pieces counts twice. -/
theorem after_after (l : Location) (a b : List Char) : (l.after a).after b =
    if PartsBreak a b then ⟨(l.after (a ++ b)).line + 1, (l.after (a ++ b)).column⟩ else l.after (a ++ b) := by
  split
  · next hb =>
    obtain ⟨more, rfl⟩ := hb.eq_cons
    have hwhole : l.after (a ++ '\n' :: more) = (l.after a).after more := calc
      l.after (a ++ '\n' :: more) = l.after ((a ++ ['\n']) ++ more) := by rw [List.append_assoc, List.singleton_append]
      _ = (l.after (a ++ ['\n'])).after more := after_append not_partsBreak_lineFeed
      _ = (l.after a).after more := by rw [after_append_lineFeed hb.1]
    -- on its own, the line feed ends another line, and it is found at the beginning of one
    have hlineFeed : (l.after a).after ['\n'] = ⟨(l.after a).line + 1, (l.after a).column⟩ := by
      rw [column_after_of_getLast? hb.1]
      rfl
    calc (l.after a).after ('\n' :: more)
        = ((l.after a).after ['\n']).after more := after_append (@not_partsBreak_lineFeed [] more)
      _ = ⟨((l.after a).after more).line + 1, ((l.after a).after more).column⟩ := by rw [hlineFeed, after_lineBelow]
      _ = ⟨(l.after (a ++ '\n' :: more)).line + 1, (l.after (a ++ '\n' :: more)).column⟩ := by rw [hwhole]
  · next hb => exact (after_append hb).symm

/-- Cut within a break, the text has a line more than it has as a whole. -/
example : origin.after ['a', '\r', '\n', 'b'] = ⟨1, 1⟩ ∧ (origin.after ['a', '\r']).after ['\n', 'b'] = ⟨2, 1⟩ := by decide

end Location

/-! ## Positions -/

namespace Position

/-- The position in a text that stands behind another one. -/
def behind (p : Position) (before : List Char) : Position :=
  ⟨before.length + p.offset, p.location.behind (Location.origin.after before)⟩

variable {p q : Position} {before input : List Char} {l : Location}

theorem rest_behind : (p.behind before).rest (before ++ input) = p.rest input := by
  simp [rest, behind, List.drop_append]

/-- Lines and columns that are missing to a location are the same. -/
theorem between_behind {rest : List Char} {start stop base : Location} :
    between rest (start.behind base) (stop.behind base) = between rest start stop := by
  unfold between
  simp only [Location.behind_le_behind, Location.line_behind, Nat.add_lt_add_iff_left, Nat.add_sub_add_left]
  split
  · rfl
  · next h =>
    rw [Location.not_le, Location.lt_def] at h
    split
    · next hline =>
      have hlater : stop.line ≠ 0 := by omega
      simp [Location.behind, hlater]
    · next hline =>
      have hcolumns : (stop.behind base).column - (start.behind base).column = stop.column - start.column := by
        unfold Location.behind
        split <;> split <;> simp only <;> omega
      rw [hcolumns]

theorem moveTo_behind : (p.behind before).moveTo (before ++ input) (l.behind (Location.origin.after before)) =
    (p.moveTo input l).behind before := by
  unfold moveTo
  rw [show (p.behind before).location = p.location.behind (Location.origin.after before) from rfl, rest_behind, between_behind]
  simp only [Location.behind_le_behind]
  split
  · rfl
  · simp [behind, Nat.add_assoc]

theorem text_behind : text (before ++ input) (p.behind before) (q.behind before) = text input p q := by
  unfold text
  rw [rest_behind, show (q.behind before).offset - (p.behind before).offset = q.offset - p.offset from Nat.add_sub_add_left ..]

end Position

/-! ## Spans -/

namespace Span

/-- The span in a text that begins at the base. -/
def behind (s : Span) (base : Location) : Span := ⟨s.start.behind base, s.stop.behind base, s.text⟩

theorem behind_inj {a b : Span} {base : Location} : a.behind base = b.behind base ↔ a = b := by
  cases a
  cases b
  simp [behind, Location.behind_inj]

end Span

/-- The placement in a text that begins at the base. -/
def Placement.behind (p : Placement) (base : Location) : Placement := ⟨p.span.behind base, p.outer.map (·.behind base)⟩

@[simp] theorem Placement.extent_behind (p : Placement) (base : Location) : (p.behind base).extent = p.extent.behind base := by
  obtain ⟨span, _ | outer⟩ := p <;> rfl

end Packrat

/-
Places in a text. What lies between a place and the place behind some text is that text, and the
line feed of a break that the text parts. A position sits in a text when its location is the one
reached by reading up to its offset and it does not part a carriage return from the line feed that
belongs to it. The location of such a position tells its offset, and moving from one such position
to the location of a later one arrives at the later one.
-/
import Packrat.Text.Bytes
import Packrat.Text.Scan
import Packrat.Text.Span

namespace Packrat

/-- Whether the place between two pieces of text parts a line break of two characters. -/
def PartsBreak (before rest : List Char) : Prop := before.getLast? = some '\r' ∧ rest.head? = some '\n'

instance (before rest : List Char) : Decidable (PartsBreak before rest) :=
  inferInstanceAs (Decidable (before.getLast? = some '\r' ∧ rest.head? = some '\n'))

theorem not_partsBreak_nil {before : List Char} : ¬ PartsBreak before [] := by
  simp [PartsBreak]

/-- Text without carriage returns parts no line break. -/
theorem not_partsBreak_of_not_mem {before rest : List Char} (h : '\r' ∉ before) : ¬ PartsBreak before rest :=
  fun hb => h (List.mem_of_getLast? hb.1)

theorem nil_not_partsBreak {rest : List Char} : ¬ PartsBreak [] rest := by
  simp [PartsBreak]

theorem PartsBreak.eq_cons {before rest : List Char} (h : PartsBreak before rest) : ∃ more, rest = '\n' :: more := by
  obtain ⟨-, hn⟩ := h
  cases rest with
  | nil => simp at hn
  | cons d more => exact ⟨more, by simpa using hn⟩

/-- Behind a line feed no break is parted. -/
theorem not_partsBreak_lineFeed {before rest : List Char} : ¬ PartsBreak (before ++ ['\n']) rest := by
  simp [PartsBreak]

/-! ## Reading in two pieces -/

namespace Scan

/-- What was read before matters only for a line feed. -/
theorem step_location {previous : Option Char} {l : Location} {c : Char}
    (h : ¬ (previous = some '\r' ∧ c = '\n')) : ((Scan.mk previous l).step c) = (Scan.start l).step c := by
  unfold step start
  by_cases hc : c = '\n'
  · have : previous ≠ some '\r' := fun hp => h ⟨hp, hc⟩
    simp [hc, this]
  · simp [hc]

theorem run_location {previous : Option Char} {l : Location} {text : List Char}
    (h : ¬ (previous = some '\r' ∧ text.head? = some '\n')) :
    ((Scan.mk previous l).run text).location = l.after text := by
  cases text with
  | nil => rfl
  | cons c text =>
    rw [run_cons, step_location (by simpa using h)]
    rfl

theorem previous_run {s : Scan} {text : List Char} (h : text ≠ []) : (s.run text).previous = text.getLast? := by
  obtain ⟨before, c, rfl⟩ := List.eq_nil_or_concat text |>.resolve_left h
  rw [List.concat_eq_append, run_append]
  simp [step]

end Scan

namespace Location

@[simp] theorem after_nil (l : Location) : l.after [] = l := rfl

/-- The place after two pieces of text, unless a line break is parted. -/
theorem after_append {l : Location} {a b : List Char} (h : ¬ PartsBreak a b) :
    l.after (a ++ b) = (l.after a).after b := by
  rw [after, Scan.run_append]
  refine Scan.run_location fun ⟨hp, hb⟩ => ?_
  cases a with
  | nil => simp [Scan.start] at hp
  | cons c a => exact h ⟨(Scan.previous_run (List.cons_ne_nil c a)).symm.trans hp, hb⟩

/-- A line feed behind a carriage return belongs to the break that has been counted already. -/
theorem after_append_lineFeed {l : Location} {text : List Char} (h : text.getLast? = some '\r') :
    l.after (text ++ ['\n']) = l.after text := by
  have hlast : ((Scan.start l).run text).previous = some '\r' := by
    rw [Scan.previous_run, h]
    rintro rfl
    simp at h
  rw [after, Scan.run_append]
  simp [Scan.step, hlast, after]

/-- Right behind a carriage return a line begins. -/
theorem column_after_of_getLast? {l : Location} {text : List Char} (h : text.getLast? = some '\r') :
    (l.after text).column = 0 := by
  obtain ⟨before, rfl⟩ := List.getLast?_eq_some_iff.1 h
  rw [after, Scan.run_append]
  simp [Scan.step]

theorem lt_of_lt_of_le {a b c : Location} (h : a < b) (k : b ≤ c) : a < c := by
  rw [le_def] at k; rw [lt_def] at *; omega

theorem lt_of_le_of_lt {a b c : Location} (h : a ≤ b) (k : b < c) : a < c := by
  rw [le_def] at h; rw [lt_def] at *; omega

theorem le_of_lt {a b : Location} (h : a < b) : a ≤ b := by
  rw [lt_def] at h; rw [le_def]; omega

theorem further_mono {a b c : Location} (h : b ≤ c) : further a b ≤ further a c := by
  unfold further
  split
  · next hab => rw [if_pos (le_trans hab h)]; exact h
  · next hab =>
    split
    · next hac => exact hac
    · exact le_refl a

/-- A place on the way does not matter. -/
theorem further_further_of_le {a b c : Location} (h : b ≤ c) : further (further a b) c = further a c := by
  simp only [further]
  grind [le_trans, le_antisymm, le_total]

theorem lt_irrefl (a : Location) : ¬ a < a := by
  rw [lt_def]; omega

end Location

theorem Scan.le_step (s : Scan) (c : Char) : s.location ≤ (s.step c).location := by
  unfold step
  split
  · simp [Location.le_def]
  · split
    · exact Location.le_refl _
    · simp [Location.le_def]

theorem Scan.le_run (s : Scan) : ∀ text : List Char, s.location ≤ (s.run text).location
  | [] => Location.le_refl _
  | c :: text => Location.le_trans (s.le_step c) (le_run (s.step c) text)

theorem Scan.lt_start_step (l : Location) (c : Char) : l < ((Scan.start l).step c).location := by
  unfold step start
  split
  · simp [Location.lt_def]
  · next h => rw [if_neg fun hc => h (.inr ⟨hc, by simp⟩)]; simp [Location.lt_def]

theorem Location.lt_after {l : Location} {text : List Char} (h : text ≠ []) : l < l.after text := by
  cases text with
  | nil => exact absurd rfl h
  | cons c text => exact Location.lt_of_lt_of_le (Scan.lt_start_step l c) (Scan.le_run _ _)

/-! ## Lines -/

/-- Without a line break, reading goes along the line. -/
theorem after_of_splitLine_eq_none {l : Location} {text : List Char} (h : splitLine text = none) :
    l.after text = ⟨l.line, l.column + text.length⟩ := by
  suffices ∀ s : Scan, (s.run text).location = ⟨s.location.line, s.location.column + text.length⟩ from this (.start l)
  fun_induction splitLine text with
  | case1 => simp
  | case2 => simp at h
  | case3 => simp at h
  | case4 c text _ hc ih =>
    intro s
    simp only [not_or] at hc
    rw [Scan.run_cons, ih (by simpa using h)]
    simp [Scan.step, hc.1, hc.2, Nat.add_assoc, Nat.add_comm 1]

/-- A line with its break ends at the beginning of the next one. -/
theorem after_of_splitLine_eq_some {l : Location} {text line rest : List Char}
    (h : splitLine text = some (line, rest)) : l.after line = ⟨l.line + 1, 0⟩ := by
  suffices ∀ s : Scan, s.previous ≠ some '\r' → (s.run line).location = ⟨s.location.line + 1, 0⟩ from
    this (.start l) (by simp [Scan.start])
  fun_induction splitLine text generalizing line rest with
  | case1 => simp at h
  | case2 rest' =>
    simp only [Option.some.injEq, Prod.mk.injEq] at h
    rw [← h.1]
    intro s _
    simp [Scan.step]
  | case3 c text hne hc =>
    simp only [Option.some.injEq, Prod.mk.injEq] at h
    rw [← h.1]
    intro s hs
    rcases hc with rfl | rfl <;> simp [Scan.step, hs]
  | case4 c text hne hc ih =>
    obtain ⟨⟨l, r⟩, hl, he⟩ := Option.map_eq_some_iff.1 h
    simp only [Prod.mk.injEq] at he
    simp only [not_or] at hc
    rw [← he.1]
    intro s _
    rw [Scan.run_cons, ih hl _ (by simp [Scan.step, hc.1])]
    simp [Scan.step, hc.1, hc.2]

/-- A line is not parted from the rest within its break. -/
theorem not_partsBreak_of_splitLine {text line rest : List Char} (h : splitLine text = some (line, rest)) :
    ¬ PartsBreak line rest := by
  fun_induction splitLine text generalizing line rest with
  | case1 => simp at h
  | case2 rest' =>
    simp only [Option.some.injEq, Prod.mk.injEq] at h
    simp [PartsBreak, ← h.1]
  | case3 c text hne hc =>
    simp only [Option.some.injEq, Prod.mk.injEq] at h
    obtain ⟨rfl, rfl⟩ := h
    rintro ⟨hr, hn⟩
    obtain ⟨rest, rfl⟩ : ∃ rest, text = '\n' :: rest := by
      cases text with
      | nil => simp at hn
      | cons d rest => exact ⟨rest, by simpa using hn⟩
    exact hne rest (by simpa using hr) rfl
  | case4 c text hne hc ih =>
    obtain ⟨⟨l, r⟩, hl, he⟩ := Option.map_eq_some_iff.1 h
    simp only [Prod.mk.injEq] at he
    obtain ⟨rfl, rfl⟩ := he
    rintro ⟨hr, hn⟩
    cases l with
    | nil => exact hc (.inl (by simpa using hr))
    | cons d l => exact ih hl ⟨by simpa using hr, hn⟩

theorem length_lt_of_splitLine {text line rest : List Char} (h : splitLine text = some (line, rest)) :
    rest.length < text.length := by
  rw [splitLine_eq_some h, List.length_append]
  have : line ≠ [] := by
    rintro rfl
    have := after_of_splitLine_eq_some (l := .origin) h
    simp [Location.origin] at this
  have := List.length_pos_iff.2 this
  omega

/-- Reading goes on behind a line at the beginning of the next one. -/
theorem after_eq_of_splitLine {l : Location} {text line rest : List Char} (h : splitLine text = some (line, rest)) :
    l.after text = Location.after ⟨l.line + 1, 0⟩ rest := by
  rw [splitLine_eq_some h, Location.after_append (not_partsBreak_of_splitLine h), after_of_splitLine_eq_some h]

/-- More text behind a line does not change the line. -/
theorem splitLine_append {text line rest more : List Char} (h : splitLine text = some (line, rest))
    (hb : ¬ PartsBreak text more) : splitLine (text ++ more) = some (line, rest ++ more) := by
  fun_induction splitLine text generalizing line rest with
  | case1 => simp at h
  | case2 rest' =>
    simp only [Option.some.injEq, Prod.mk.injEq] at h
    obtain ⟨rfl, rfl⟩ := h
    rfl
  | case3 c text hne hc =>
    simp only [Option.some.injEq, Prod.mk.injEq] at h
    obtain ⟨rfl, rfl⟩ := h
    rw [List.cons_append, splitLine.eq_3, if_pos hc]
    intro rest hr he
    cases text with
    | nil =>
      subst hr
      simp only [List.nil_append] at he
      exact hb ⟨rfl, by simp [he]⟩
    | cons d text =>
      simp only [List.cons_append, List.cons.injEq] at he
      exact hne text hr (by rw [he.1])
  | case4 c text hne hc ih =>
    obtain ⟨⟨l, r⟩, hl, he⟩ := Option.map_eq_some_iff.1 h
    simp only [Prod.mk.injEq] at he
    obtain ⟨rfl, rfl⟩ := he
    have hb' : ¬ PartsBreak text more := fun ⟨h1, h2⟩ => hb ⟨by
      cases text with
      | nil => simp at h1
      | cons d text => simpa using h1, h2⟩
    rw [List.cons_append, splitLine.eq_3, if_neg hc, ih hl hb']
    · rfl
    · rintro rest rfl _
      exact hc (.inl rfl)

/-- The lines and columns that reading a text takes are those that take the text back. -/
theorem takeLines_after {text more : List Char} (line : Nat) (hb : ¬ PartsBreak text more) :
    line ≤ (Location.after ⟨line, 0⟩ text).line ∧
      takeLines ((Location.after ⟨line, 0⟩ text).line - line) (Location.after ⟨line, 0⟩ text).column (text ++ more) = text := by
  cases hs : splitLine text with
  | none =>
    rw [after_of_splitLine_eq_none hs]
    simp [takeLines]
  | some p =>
    obtain ⟨first, rest⟩ := p
    have hlt := length_lt_of_splitLine hs
    have hafter : Location.after ⟨line, 0⟩ text = Location.after ⟨line + 1, 0⟩ rest := after_eq_of_splitLine hs
    have hb' : ¬ PartsBreak rest more := fun ⟨h1, h2⟩ => hb ⟨by
      rw [splitLine_eq_some hs, List.getLast?_append, h1]
      rfl, h2⟩
    obtain ⟨hle, ih⟩ := takeLines_after (line + 1) hb'
    rw [hafter]
    refine ⟨by omega, ?_⟩
    obtain ⟨n, hn⟩ : ∃ n, (Location.after ⟨line + 1, 0⟩ rest).line = line + 1 + n := ⟨_, (Nat.add_sub_of_le hle).symm⟩
    rw [hn] at ih ⊢
    rw [Nat.add_sub_cancel_left] at ih
    rw [show line + 1 + n - line = n + 1 by omega, takeLines, splitLine_append hs hb]
    simp only
    rw [ih, ← splitLine_eq_some hs]
termination_by text.length

/-- What lies between a place and the place behind some text is that text. -/
theorem between_after {l : Location} {text more : List Char} (hb : ¬ PartsBreak text more) :
    between (text ++ more) l (l.after text) = text := by
  unfold between
  cases hs : splitLine text with
  | none =>
    rw [after_of_splitLine_eq_none hs]
    by_cases h : text = []
    · simp [h]
    · have := List.length_pos_iff.2 h
      rw [if_neg (by simp [Location.le_def]; omega), if_neg (by simp)]
      simp
  | some p =>
    obtain ⟨first, rest⟩ := p
    have hafter : l.after text = Location.after ⟨l.line + 1, 0⟩ rest := after_eq_of_splitLine hs
    have hzero : l.after text = Location.after ⟨l.line, 0⟩ text := hafter.trans (after_eq_of_splitLine (l := ⟨l.line, 0⟩) hs).symm
    have hb' : ¬ PartsBreak rest [] := not_partsBreak_nil
    have hline := (takeLines_after (l.line + 1) hb').1
    rw [← hafter] at hline
    rw [if_neg (by rw [Location.le_def]; omega), if_pos (by omega), hzero]
    exact (takeLines_after l.line hb).2

/-- If the text parts a line break, the rest of the break lies between the places as well. -/
theorem between_after_eq (l : Location) (text more : List Char) :
    between (text ++ more) l (l.after text) = text ++ if PartsBreak text more then ['\n'] else [] := by
  split
  · next hb =>
    obtain ⟨more, rfl⟩ := hb.eq_cons
    calc between (text ++ '\n' :: more) l (l.after text)
        = between ((text ++ ['\n']) ++ more) l (l.after (text ++ ['\n'])) := by
          rw [Location.after_append_lineFeed hb.1, List.append_assoc, List.singleton_append]
      _ = text ++ ['\n'] := between_after not_partsBreak_lineFeed
  · next hb => rw [between_after hb, List.append_nil]

/-- Taking text up to the place that a text leads to takes the bytes of that text, and one more where
it parts a line break. -/
theorem byteLength_between_after (l : Location) (text more : List Char) :
    byteLength (between (text ++ more) l (l.after text)) = byteLength text + if PartsBreak text more then 1 else 0 := by
  rw [between_after_eq, byteLength_append]
  split <;> rfl

/-! ## Positions -/

namespace Position

/-- A position whose location is the one reached by reading, not within a line break. -/
def Sits (input : List Char) (p : Position) : Prop :=
  ∃ before, input = before ++ p.rest input ∧ p.offset = before.length ∧
    p.location = Location.origin.after before ∧ ¬ PartsBreak before (p.rest input)

/-- The locations of a text: those of the positions that sit in it. -/
def Place (input : List Char) (l : Location) : Prop := ∃ p : Position, p.Sits input ∧ p.location = l

variable {input : List Char} {p q : Position}

theorem sits_origin : origin.Sits input := ⟨[], by simp [rest, origin], rfl, rfl, nil_not_partsBreak⟩

theorem Sits.place (h : p.Sits input) : Place input p.location := ⟨p, h, rfl⟩

theorem place_origin : Place input .origin := sits_origin.place

theorem Sits.offset_le (h : p.Sits input) : p.offset ≤ input.length := by
  obtain ⟨before, hi, ho, -⟩ := h
  rw [ho, hi, List.length_append]
  omega

/-- Reading some of the rest leads from one position to another. -/
theorem Sits.advance {text more : List Char} (h : p.Sits input) (hr : p.rest input = text ++ more)
    (hb : ¬ PartsBreak text more) : Sits input ⟨p.offset + text.length, p.location.after text⟩ ∧
      rest ⟨p.offset + text.length, p.location.after text⟩ input = more := by
  obtain ⟨before, hi, ho, hl, hp⟩ := h
  have hrest : rest ⟨p.offset + text.length, p.location.after text⟩ input = more := by
    unfold rest at hr ⊢
    rw [← List.drop_drop, hr, List.drop_left]
  refine ⟨⟨before ++ text, ?_, ?_, ?_, ?_⟩, hrest⟩
  · rw [hrest, List.append_assoc, ← hr]
    exact hi
  · simp [ho]
  · show p.location.after text = _
    rw [Location.after_append, hl]
    rintro ⟨h1, h2⟩
    refine hp ⟨h1, ?_⟩
    rw [hr]
    cases text with
    | nil => simp at h2
    | cons c text => simpa using h2
  · rw [hrest]
    rintro ⟨h1, h2⟩
    cases text with
    | nil =>
      refine hp ⟨by simpa using h1, ?_⟩
      rw [hr]
      exact h2
    | cons c text => exact hb ⟨by simpa [List.getLast?_append] using h1, h2⟩

/-- Of two positions in a text, the one further on is reached by reading what lies between. -/
theorem Sits.reads (hp : p.Sits input) (hq : q.Sits input) (h : p.offset ≤ q.offset) :
    ∃ text, p.rest input = text ++ q.rest input ∧ ¬ PartsBreak text (q.rest input) ∧
      q = ⟨p.offset + text.length, p.location.after text⟩ := by
  obtain ⟨before, hi, ho, hl, hb⟩ := hp
  obtain ⟨before', hi', ho', hl', hb'⟩ := hq
  obtain ⟨text, rfl⟩ : ∃ text, before' = before ++ text := by
    have hpre : before <+: input := ⟨_, hi.symm⟩
    have hpre' : before' <+: input := ⟨_, hi'.symm⟩
    obtain ⟨text, ht⟩ := List.prefix_of_prefix_length_le hpre hpre' (by omega)
    exact ⟨text, ht.symm⟩
  have hr : p.rest input = text ++ q.rest input := by
    rw [List.append_assoc] at hi'
    exact List.append_cancel_left (hi.symm.trans hi')
  have hparts : ¬ PartsBreak before text := by
    rintro ⟨h1, h2⟩
    refine hb ⟨h1, ?_⟩
    rw [hr]
    cases text with
    | nil => simp at h2
    | cons c text => simpa using h2
  refine ⟨text, hr, ?_, ?_⟩
  · rintro ⟨h1, h2⟩
    exact hb' ⟨by rw [List.getLast?_append, h1]; rfl, h2⟩
  · obtain ⟨o, l⟩ := q
    simp only at ho' hl'
    rw [ho', hl', Location.after_append hparts, ho, hl, List.length_append]

/-- Between two positions stands the text that leads from one to the other. -/
theorem Sits.text_append (hp : p.Sits input) (hq : q.Sits input) (hle : p.offset ≤ q.offset) :
    p.rest input = text input p q ++ q.rest input ∧ q.location = p.location.after (text input p q) := by
  obtain ⟨between, hrest, -, hq'⟩ := hp.reads hq hle
  have htext : text input p q = between := by
    unfold text
    rw [hrest, hq']
    simp
  rw [htext]
  exact ⟨hrest, by rw [hq']⟩

theorem Sits.lt_iff (hp : p.Sits input) (hq : q.Sits input) : p.location < q.location ↔ p.offset < q.offset := by
  have key : ∀ {p q : Position}, p.Sits input → q.Sits input → p.offset < q.offset → p.location < q.location := by
    intro p q hp hq h
    obtain ⟨text, -, -, rfl⟩ := hp.reads hq (Nat.le_of_lt h)
    exact Location.lt_after (by rintro rfl; simp at h)
  refine ⟨fun h => ?_, key hp hq⟩
  rcases Nat.lt_or_ge p.offset q.offset with hlt | hge
  · exact hlt
  rcases Nat.lt_or_eq_of_le hge with hlt | heq
  · exact absurd (Location.lt_of_lt_of_le h (Location.le_of_lt (key hq hp hlt))) (Location.lt_irrefl _)
  · obtain ⟨text, -, -, rfl⟩ := hq.reads hp (Nat.le_of_eq heq)
    have : text = [] := List.eq_nil_of_length_eq_zero (by simpa using heq)
    subst this
    exact absurd h (Location.lt_irrefl _)

theorem Sits.le_iff (hp : p.Sits input) (hq : q.Sits input) : p.location ≤ q.location ↔ p.offset ≤ q.offset := by
  rw [← Location.not_lt, hq.lt_iff hp, Nat.not_lt]

/-- A location tells the position. -/
theorem Sits.ext (hp : p.Sits input) (hq : q.Sits input) (h : p.location = q.location) : p = q := by
  have h1 := (hp.le_iff hq).1 (h ▸ Location.le_refl _)
  have h2 := (hq.le_iff hp).1 (h ▸ Location.le_refl _)
  obtain ⟨o, l⟩ := p
  obtain ⟨o', l'⟩ := q
  simp only at h h1 h2
  rw [h, Nat.le_antisymm h1 h2]

/-- Moving to the location of a later position arrives there. -/
theorem Sits.moveTo (hp : p.Sits input) (hq : q.Sits input) (h : p.location ≤ q.location) :
    p.moveTo input q.location = q := by
  unfold Position.moveTo
  split
  · next hle => exact hp.ext hq (Location.le_antisymm h hle)
  · obtain ⟨text, hr, hb, rfl⟩ := hp.reads hq ((hp.le_iff hq).1 h)
    rw [hr, between_after hb]

/-- Positions do not move back. -/
theorem le_moveTo (p : Position) (target : Location) : p.location ≤ (p.moveTo input target).location := by
  unfold Position.moveTo
  split
  · exact Location.le_refl _
  · next h => exact (Location.le_total _ _).resolve_left h

/-- Some text lies between two locations, where there is any left. -/
theorem between_ne_nil {rest : List Char} {start stop : Location} (hr : rest ≠ []) (h : start < stop) :
    between rest start stop ≠ [] := by
  have hn : ¬ stop ≤ start := by
    rw [Location.not_le]
    exact h
  rw [between, if_neg hn]
  split
  · next hline =>
    obtain ⟨n, hline⟩ : ∃ n, stop.line - start.line = n + 1 := ⟨stop.line - start.line - 1, by omega⟩
    rw [hline, takeLines]
    split
    · exact hr
    · next line after hs =>
      intro hnil
      have hlt := length_lt_of_splitLine hs
      obtain ⟨rfl, -⟩ := List.append_eq_nil_iff.1 hnil
      rw [splitLine_eq_some hs] at hlt
      simp at hlt
  · rw [Location.lt_def] at h
    rw [Ne, List.take_eq_nil_iff]
    rintro (hz | hz)
    · omega
    · exact hr hz

/-- A location ahead takes at least one character to get to, if there is one. -/
theorem offset_lt_moveTo {target : Location} (hp : p.offset < input.length) (h : p.location < target) :
    p.offset < (p.moveTo input target).offset := by
  have hn : ¬ target ≤ p.location := by
    rw [Location.not_le]
    exact h
  have hr : p.rest input ≠ [] := by
    rw [Position.rest, Ne, List.drop_eq_nil_iff]
    omega
  have := List.length_pos_iff.2 (between_ne_nil hr h)
  rw [Position.moveTo, if_neg hn]
  simp only
  omega

theorem moveTo_of_le {target : Location} (h : target ≤ p.location) : p.moveTo input target = p := if_pos h

theorem location_moveTo_of_le {target : Location} (h : p.location ≤ target) :
    (p.moveTo input target).location = target := by
  unfold Position.moveTo
  split
  · next hle => exact Location.le_antisymm h hle
  · rfl

theorem location_moveTo (target : Location) :
    (p.moveTo input target).location = Location.further p.location target := by
  unfold Location.further
  split
  · next h => exact location_moveTo_of_le h
  · next h => rw [moveTo_of_le ((Location.le_total _ _).resolve_left h)]

theorem Sits.moveTo_place {target : Location} (hp : p.Sits input) (h : Place input target) :
    (p.moveTo input target).Sits input := by
  obtain ⟨q, hq, rfl⟩ := h
  by_cases hle : q.location ≤ p.location
  · rwa [moveTo_of_le hle]
  · rwa [hp.moveTo hq ((Location.le_total _ _).resolve_left hle)]

/-- What is left behind some text that was read, less the line feed of a break that it parts. -/
def restBehind (text more : List Char) : List Char := if PartsBreak text more then more.tail else more

theorem restBehind_of_not_partsBreak {text more : List Char} (h : ¬ PartsBreak text more) : restBehind text more = more :=
  if_neg h

/-- Reading a piece of the rest leads to the location of a position, even if it parts a line break:
then the position lies behind the break. -/
theorem Sits.behind {text more : List Char} (hp : p.Sits input) (hr : p.rest input = text ++ more) :
    ∃ q : Position, q.Sits input ∧ q.location = p.location.after text ∧ q.rest input = restBehind text more := by
  unfold restBehind
  split
  · next hb =>
    obtain ⟨more, rfl⟩ := hb.eq_cons
    have hb' : ¬ PartsBreak (text ++ ['\n']) more := not_partsBreak_lineFeed
    have hr' : p.rest input = (text ++ ['\n']) ++ more := by simpa using hr
    obtain ⟨hsits, hrest⟩ := hp.advance hr' hb'
    exact ⟨_, hsits, Location.after_append_lineFeed hb.1, hrest⟩
  · next hb =>
    obtain ⟨hsits, hrest⟩ := hp.advance hr hb
    exact ⟨_, hsits, rfl, hrest⟩

/-- So moving to the location where some text ends leads behind a break that the text parts. -/
theorem Sits.moveTo_after {text more : List Char} (hp : p.Sits input) (hr : p.rest input = text ++ more) :
    (p.moveTo input (p.location.after text)).Sits input ∧
      (p.moveTo input (p.location.after text)).rest input = restBehind text more := by
  obtain ⟨q, hq, hlocation, hrest⟩ := hp.behind hr
  rw [← hlocation, hp.moveTo hq (hlocation ▸ Scan.le_run (.start p.location) text)]
  exact ⟨hq, hrest⟩

/-- Reading a piece of the rest ends at a location of the text, even if it parts a line break. -/
theorem Sits.place_after {text more : List Char} (hp : p.Sits input) (hr : p.rest input = text ++ more) :
    Place input (p.location.after text) := by
  obtain ⟨q, hq, hlocation, -⟩ := hp.behind hr
  exact ⟨q, hq, hlocation⟩

end Position

end Packrat

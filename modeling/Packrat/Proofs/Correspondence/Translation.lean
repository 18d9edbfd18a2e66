/-
Translation of parses. What a parse does at a place depends on the text from there on, and on how places lie to each
other. So behind another text, an expression comes to what it comes to at the beginning, at shifted places; and so do
all the expressions that are tried for it, what is set aside, and what is remembered. Places that fallbacks bring with
them are not shifted, and matchers from outside may look at the place, so the grammar has to do without these.
-/
import Packrat.Proofs.Correspondence.Operators
import Packrat.Proofs.Memory.Transparency
import Packrat.Proofs.Text.Shifts

namespace Packrat

open Correspondence

/-! ## Trees -/

namespace Tree

mutual

/-- The tree in a text that begins at the base. -/
def behind (base : Location) : Tree → Tree
  | .text place chars => .text (place.behind base) chars
  | .found place groups => .found (place.behind base) groups
  | .list place items => .list (place.behind base) (behindAll base items)
  | .node place lineage fields => .node (place.behind base) lineage (behindFields base fields)

/-- The trees in a text that begins at the base. -/
def behindAll (base : Location) : List Tree → List Tree
  | [] => []
  | t :: rest => t.behind base :: behindAll base rest

/-- The fields with their trees in a text that begins at the base. -/
def behindFields (base : Location) : List (String × Tree) → List (String × Tree)
  | [] => []
  | (name, t) :: rest => (name, t.behind base) :: behindFields base rest

end

variable {base : Location}

theorem behindAll_eq_map (ts : List Tree) : behindAll base ts = ts.map (behind base) := by
  induction ts with
  | nil => rfl
  | cons t rest ih => rw [behindAll, ih, List.map_cons]

theorem behindFields_zip : ∀ (names : List String) (ts : List Tree),
    behindFields base (names.zip ts) = names.zip (behindAll base ts)
  | [], _ => by simp [behindFields]
  | _ :: _, [] => by simp [behindFields, behindAll]
  | name :: names, t :: ts => by simp [behindFields, behindAll, behindFields_zip names ts]

@[simp] theorem place_behind (t : Tree) : (t.behind base).place = t.place.behind base := by
  cases t <;> simp only [behind, place]

@[simp] theorem extent_behind (t : Tree) : (t.behind base).extent = t.extent.behind base := by simp [extent]

@[simp] theorem span_behind (t : Tree) : (t.behind base).span = t.span.behind base := by
  simp [span, Placement.behind]

@[simp] theorem items?_behind (t : Tree) : (t.behind base).items? = t.items?.map (behindAll base) := by
  cases t <;> simp only [behind, items?, Option.map_some, Option.map_none]

theorem setPlace_behind (t : Tree) (place : Placement) : (t.setPlace place).behind base = (t.behind base).setPlace (place.behind base) := by
  cases t <;> simp only [setPlace, behind]

theorem inside_behind (t : Tree) (outer : Span) : (t.inside outer).behind base = (t.behind base).inside (outer.behind base) := by
  unfold inside
  rw [setPlace_behind, span_behind]
  by_cases h : outer = t.span
  · simp [h, Placement.behind]
  · simp [h, Span.behind_inj, Placement.behind]

theorem widened_behind (t : Tree) : t.widened.behind base = (t.behind base).widened := by
  unfold widened
  rw [setPlace_behind, extent_behind]
  rfl

theorem forall₂_behind {ts us : List Tree} : List.Forall₂ (fun t u => t.behind base = u) ts us ↔ behindAll base ts = us := by
  rw [behindAll_eq_map, ← List.forall₂_map_left_iff (f := behind base) (R := Eq), List.forall₂_eq_eq_eq]

end Tree

/-- A production makes the shifted node of the shifted result. -/
theorem Production.node_behind (p : Production) (rule : String) (t : Tree) (base : Location) :
    ExceptRel Eq (fun t u => t.behind base = u) (p.node rule t) (p.node rule (t.behind base)) := by
  have hitems : ((t.behind base).items?.getD []) = Tree.behindAll base (t.items?.getD []) := by
    rw [Tree.items?_behind]
    cases t.items? <;> simp [Tree.behindAll]
  have hlength : (Tree.behindAll base (t.items?.getD [])).length = (t.items?.getD []).length := by
    rw [Tree.behindAll_eq_map, List.length_map]
  have hcount : (t.behind base).items?.elim 1 List.length = t.items?.elim 1 List.length := by
    rw [Tree.items?_behind]
    cases t.items? with
    | none => rfl
    | some items => exact (congrArg List.length (Tree.behindAll_eq_map items)).trans (List.length_map ..)
  unfold Production.node
  split
  · refine .ok ?_
    rw [Tree.behind, Tree.extent_behind, Tree.behindFields, Tree.behindFields]
    rfl
  · simp only
    rw [hitems, hlength, hcount]
    split
    · refine .ok ?_
      rw [Tree.behind, Tree.extent_behind, Tree.behindFields_zip]
      rfl
    · exact .error rfl

/-- So does a rule. -/
theorem Grammar.produce_behind (g : Grammar) (rule : String) (t : Tree) (base : Location) :
    ExceptRel Eq (fun t u => t.behind base = u) (g.produce rule t) (g.produce rule (t.behind base)) := by
  unfold Grammar.produce
  cases g.production? rule with
  | some production => exact production.node_behind rule t base
  | none => exact .ok t.widened_behind

/-! ## The correspondence -/

/-- Places are those behind another text, and results have them. Expressions are the same, and what they give
by themselves stems from the text; and so are skippers. -/
def translation (before : List Char) : Correspondence where
  location l l' := l.behind (.after .origin before) = l'
  position p p' := p.behind before = p'
  tree t t' := t.behind (.after .origin before) = t'
  expr e e' := e = e' ∧ e.Throughout (·.isTextual = true)
  skipping mode mode' := mode = mode' ∧ ∀ skipper, mode = .special skipper → skipper.Throughout (·.isTextual = true)

/-- The job of parsing the text behind another one. -/
def Job.behind (job : Job) (before : List Char) : Job := { job with input := before ++ job.input }

variable {job : Job} {before : List Char}

/-- The verdict in a text that begins at the base. -/
def Verdict.behind (base : Location) : Verdict → Verdict
  | .matched t => .matched (t.behind base)
  | .silent why => .silent why
  | .omitted span => .omitted (span.behind base)
  | .failed f => .failed ⟨f.cause, f.stop.behind base⟩

namespace translation

theorem spans_iff {s s' : Span} : (translation before).Spans s s' ↔ s.behind (.after .origin before) = s' := by
  constructor
  · rintro ⟨hstart, hstop, htext⟩
    cases s
    cases s'
    simp_all [translation, Span.behind]
  · rintro rfl
    exact ⟨rfl, rfl, rfl⟩

theorem verdict_eq {v v' : Verdict} (h : (translation before).Verdicts v v') : v' = v.behind (.after .origin before) := by
  rcases h with @⟨t, u, rfl⟩ | why | hspan | @⟨f, f', hcause, hstop⟩
  · rfl
  · rfl
  · rw [← spans_iff.1 hspan]
    rfl
  · cases f'
    rw [Verdict.behind, hcause, show f.stop.behind _ = _ from hstop]

theorem readLiteral_behind (literal : List Char) : ∀ (wanted rest : List Char) (s : Scan),
    ExceptRel (translation before).Failures (translation before).location (readLiteral literal wanted rest s)
      (readLiteral literal wanted rest ⟨s.previous, s.location.behind (.after .origin before)⟩)
  | [], _, _ => .ok rfl
  | _ :: _, [], _ => .error ⟨rfl, rfl⟩
  | c :: wanted, d :: rest, s => by
    unfold readLiteral
    rw [Scan.step_behind]
    split
    · exact readLiteral_behind literal wanted rest (s.step d)
    · exact .error ⟨rfl, rfl⟩

theorem literal (text rest : List Char) (l : Location) :
    (translation before).Verdicts (literalVerdict text rest l) (literalVerdict text rest (l.behind (.after .origin before))) := by
  have hread : ExceptRel (translation before).Failures (translation before).location (readLiteral text text rest (.start l))
      (readLiteral text text rest (.start (l.behind (.after .origin before)))) := readLiteral_behind text text rest (.start l)
  unfold literalVerdict
  generalize readLiteral text text rest (.start l) = r at hread
  generalize readLiteral text text rest (.start (l.behind (.after .origin before))) = r' at hread
  cases hread with
  | ok hstop =>
    subst hstop
    refine .matched ?_
    show Tree.behind _ (.text _ _) = _
    rw [Tree.behind]
    rfl
  | error hf => exact .failed hf

theorem pattern (engine : Regex.Engine) (pattern : Pattern) (rest : List Char) (l : Location) :
    (translation before).Verdicts (patternVerdict engine pattern rest l)
      (patternVerdict engine pattern rest (l.behind (.after .origin before))) := by
  unfold patternVerdict
  cases engine.captures pattern rest with
  | none => exact .failed ⟨rfl, rfl⟩
  | some groups =>
    refine .matched ?_
    show Tree.behind _ (.found _ _) = _
    rw [Tree.behind, Location.after_behind]
    rfl

end translation

/-! ## Laws -/

theorem Grammar.Textual.isTextual {g : Grammar} (hg : g.Textual) {e : Expr} (he : g.Has e) : e.isTextual = true := by
  cases e with
  | external key => exact absurd he (hg.internal key)
  | repetition body bounds fallback =>
    cases fallback with
    | none => rfl
    | some t => exact hg.fallbacks body bounds t he
  | _ => rfl

theorem Grammar.Textual.throughout {g : Grammar} (hg : g.Textual) {e : Expr} (he : g.Has e) :
    e.Throughout (·.isTextual = true) := he.throughout fun _ => hg.isTextual

theorem translation_holds (hg : job.grammar.Textual) : (translation before).Holds job (job.behind before) where
  remember := rfl
  depthLimit := rfl
  slack := rfl
  le := by rintro _ _ _ _ ⟨⟩ ⟨⟩; exact Location.behind_le_behind.symm
  place := by rintro _ _ ⟨⟩; rfl
  rest := by rintro _ _ ⟨⟩; exact Position.rest_behind.symm
  remaining := by
    rintro p _ ⟨⟩
    simp only [Job.remaining, Job.behind, Position.behind, List.length_append]
    omega
  moveTo := by rintro _ _ _ _ ⟨⟩ ⟨⟩; exact Position.moveTo_behind.symm
  text := by rintro _ _ _ _ ⟨⟩ ⟨⟩; exact Position.text_behind.symm
  extent := by
    rintro t _ ⟨⟩
    exact translation.spans_iff.2 t.extent_behind.symm
  items := by
    rintro t _ ⟨⟩
    rw [Tree.items?_behind]
    cases t.items? with
    | none => exact .none
    | some items => exact .some (Tree.forall₂_behind.2 rfl)
  list {span span' items items'} hspan hitems := by
    obtain rfl := translation.spans_iff.1 hspan
    obtain rfl := Tree.forall₂_behind.1 hitems
    show Tree.behind _ (.list _ _) = _
    rw [Tree.behind]
    rfl
  inside {t t' span span'} ht hspan := by
    obtain rfl := translation.spans_iff.1 hspan
    obtain rfl : t.behind _ = t' := ht
    exact t.inside_behind span
  produce := by
    rintro rule t _ ⟨⟩
    exact job.grammar.produce_behind rule t _
  shape := by
    rintro e _ ⟨rfl, he⟩
    refine .refl (fun part hp => ⟨rfl, he.part hp⟩) fun t ht l l' hl => ?_
    -- a fallback is an empty list, wherever it is put
    have hnil : t.isNil = true := by
      cases e <;> cases ht
      exact he.here
    obtain rfl : l.behind _ = l' := hl
    cases t <;> simp only [Tree.isNil, List.isEmpty_iff, Bool.false_eq_true] at hnil
    subst hnil
    show Tree.behind _ (.list _ _) = .list _ _
    rw [Tree.behind, Tree.behindAll]
    rfl
  display := by rintro _ _ ⟨rfl, -⟩; rfl
  same := by rintro _ _ _ _ ⟨rfl, -⟩ ⟨rfl, -⟩; rfl
  rule name := by
    show Option.Rel _ (job.grammar.rule? name) (job.grammar.rule? name)
    cases hbody : job.grammar.rule? name with
    | none => exact .none
    | some body => exact .some ⟨rfl, hg.throughout (.body hbody)⟩
  literal := by rintro text rest _ _ ⟨⟩; exact translation.literal text rest _
  pattern := by rintro pattern rest _ _ ⟨⟩; exact translation.pattern job.grammar.engine pattern rest _
  external he := nomatch he.2.here
  sameSkipping := by rintro _ _ _ _ ⟨rfl, -⟩ ⟨rfl, -⟩; rfl
  skipper {mode mode'} := by
    rintro ⟨rfl, hmode⟩
    cases mode with
    | standard =>
      show Option.Rel _ job.grammar.skipper job.grammar.skipper
      cases hskipper : job.grammar.skipper with
      | none => exact .none
      | some skipper => exact .some ⟨rfl, hg.throughout (.skipper hskipper)⟩
    | special skipper => exact .some ⟨rfl, hmode skipper rfl⟩
    | off => exact .none
  skippingIn {rule mode mode'} := by
    rintro ⟨rfl, hmode⟩
    refine ⟨rfl, fun skipper hskipper => ?_⟩
    unfold Job.skippingIn at hskipper
    split at hskipper
    · next own hown =>
      cases hskipper
      exact hg.throughout (.override hown)
    · cases hskipper
    · exact hmode skipper hskipper

/-! ## Translation -/

/-- The beginning of a text that stands behind another one, outside of all rules. -/
def Setting.startBehind (before : List Char) : Setting := ⟨⟨before.length, .after .origin before⟩, none, .standard⟩

theorem translation.settings_start : (translation before).Settings .start (.startBehind before) :=
  ⟨by simp [translation, Position.behind, Setting.start, Setting.startBehind, Position.origin], rfl, rfl, nofun⟩

theorem translation.sessions_start : (translation before).Sessions .start .start := by
  refine ⟨fun l l' _ => ?_, .none⟩
  show List.Forall₂ _ (Memory.empty.cell l) (Memory.empty.cell l')
  rw [Memory.cell_empty, Memory.cell_empty]
  exact .nil

theorem Correspondence.Attempts.settled_behind {a a' : Attempt} {v : Verdict} (h : (translation before).Attempts a a')
    (hv : a = .settled v) : a' = .settled (v.behind (.after .origin before)) := by
  subst hv
  cases h with
  | settled h => rw [translation.verdict_eq h]

/-- Where all that is tried stems from the text, an expression comes behind another text to what it comes to at the
beginning, but at shifted places: to a result whose spans are shifted at every level, to the same silence, to leaving
out the shifted span, to a failure for the same cause at the shifted place, to the same error, or to a recursion
signal with the shifted suspended work. -/
theorem Job.translates (job : Job) (hg : job.grammar.Textual) {p : Expr} (hp : p.Throughout (·.isTextual = true))
    (before : List Char) :
    let came := ((apply job p .start).on .start).1
    let behind := ((apply (job.behind before) p (.startBehind before)).on .start).1
    (translation before).Attempts came behind ∧
      ∀ v, came = .settled v → behind = .settled (v.behind (.after .origin before)) := by
  intro came behind
  have hcame : (translation before).Attempts came behind :=
    ((translation_holds hg).applyWithin job.options.depthLimit p p .start (.startBehind before) ⟨rfl, hp⟩
      translation.settings_start .start .start translation.sessions_start).1
  exact ⟨hcame, fun v hv => hcame.settled_behind hv⟩

namespace Grammar

/-- A sum that comes back to itself, with spaces between tokens, on the second line of a text. -/
theorem translates_nestedSums : ofNestedSums.Textual ∧ (Expr.rule "sum").Throughout (·.isTextual = true) ∧
    let job := Job.new ofNestedSums (.rule "sum") .standard .nothing "x + (x)".toList
    ∃ t, ((apply job (.rule "sum") .start).on .start).1 = .settled (.matched t) ∧ t.extent.stop = ⟨0, 7⟩ ∧
      ((apply (job.behind "y\r\n: ".toList) (.rule "sum") (.startBehind "y\r\n: ".toList)).on .start).1 =
        .settled (.matched (t.behind ⟨1, 2⟩)) ∧ (t.behind ⟨1, 2⟩).extent.stop = ⟨1, 9⟩ := by
  have hg : ofNestedSums.Textual := textual_of_check (by decide +kernel)
  have hp : (Expr.rule "sum").Throughout (·.isTextual = true) := .intro rfl nofun
  refine ⟨hg, hp, ?_⟩
  intro job
  have hcame : ((apply job (.rule "sum") .start).on .start).1.tree?.map (·.extent.stop) = some ⟨0, 7⟩ := by decide +kernel
  obtain ⟨t, ht, hstop⟩ := Option.map_eq_some_iff.1 hcame
  have hmatched : ((apply job (.rule "sum") .start).on .start).1 = .settled (.matched t) := Attempt.tree?_eq_some ht
  refine ⟨t, hmatched, hstop, (job.translates hg hp "y\r\n: ".toList).2 _ hmatched, ?_⟩
  rw [Tree.extent_behind]
  show t.extent.stop.behind ⟨1, 2⟩ = _
  rw [hstop]
  rfl

end Grammar

end Packrat

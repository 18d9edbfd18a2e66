/-
Equal expressions in place of one another. If they have what is in their fallbacks in the same places, then
they come to the same wherever they are tried: to equal results with the same spans at every level, to the
same failures, or to work that is suspended in the same way. If not, then one can match and the other fail.
-/
import Packrat.Proofs.Contract.Lapses
import Packrat.Proofs.Correspondence.Operators
import Packrat.Proofs.Expr.Coincidence

namespace Packrat

open Correspondence

/-- Places are the same, and trees, expressions and ways of skipping coincide. -/
def coincidence : Correspondence where
  location := Eq
  position := Eq
  tree := Tree.Coincides
  expr := Expr.Coincides
  skipping := SkipMode.Coincides

variable {job : Job}

/-! ## The same on both sides -/

namespace coincidence

theorem spans_refl (span : Span) : coincidence.Spans span span := ⟨rfl, rfl, rfl⟩

theorem spans_iff {a b : Span} : coincidence.Spans a b ↔ a = b := by
  constructor
  · rintro ⟨hstart, hstop, htext⟩
    cases a
    cases b
    simp_all [coincidence]
  · rintro rfl
    exact spans_refl a

theorem verdicts_refl : ∀ v : Verdict, coincidence.Verdicts v v
  | .matched t => .matched (.refl t)
  | .silent why => .silent why
  | .omitted span => .omitted (spans_refl span)
  | .failed _ => .failed ⟨rfl, rfl⟩

theorem skipping_refl (mode : SkipMode) : mode.Coincides mode := ⟨SkipMode.same_iff.2 rfl, rfl⟩

theorem settings_refl (setting : Setting) : coincidence.Settings setting setting := ⟨rfl, rfl, skipping_refl _⟩

theorem sessions_refl (s : Session) : coincidence.Sessions s s := by
  refine ⟨fun l l' hl => ?_, ?_⟩
  · obtain rfl : l = l' := hl
    exact List.forall₂_same.2 fun a _ => ⟨⟨.refl _, rfl, skipping_refl _⟩, verdicts_refl _⟩
  · cases s.entered with
    | none => exact .none
    | some mark => exact .some ⟨rfl, rfl⟩

end coincidence

/-! ## Laws -/

theorem Expr.Coincides.shape {e d : Expr} (h : e.Coincides d) : coincidence.Exprs e d := by
  obtain ⟨hsame, hplaces⟩ := h
  cases e <;> cases d <;> try cases hsame
  case sequence.sequence => exact .sequence (Expr.Coincides.of_all hsame hplaces)
  case merge.merge => exact .merge (Expr.Coincides.of_all hsame hplaces)
  case choice.choice => exact .choice (Expr.Coincides.of_all hsame hplaces)
  case ahead.ahead => exact .ahead ⟨hsame, hplaces⟩
  case notAhead.notAhead => exact .notAhead ⟨hsame, hplaces⟩
  case omission.omission => exact .omission ⟨hsame, hplaces⟩
  case literal.literal =>
    obtain rfl := eq_of_beq hsame
    exact .literal _
  case rule.rule =>
    obtain rfl := eq_of_beq hsame
    exact .rule _
  case external.external =>
    obtain rfl := eq_of_beq hsame
    exact .external _
  case pattern.pattern =>
    obtain rfl := Pattern.ext_source (eq_of_beq hsame)
    exact .pattern _
  case repetition.repetition body bounds fallback body' bounds' fallback' =>
    simp only [Expr.same, Bool.and_eq_true, beq_iff_eq] at hsame
    obtain ⟨⟨rfl, hbody⟩, hfallback⟩ := hsame
    obtain ⟨hbodies, hfallbacks⟩ := List.append_inj hplaces (Expr.length_innerPlaces_of_same hbody)
    refine .repetition ⟨hbody, hbodies⟩ ?_
    cases fallback <;> cases fallback' <;> try cases hfallback
    · exact .none
    · refine .some fun l l' hl => ?_
      obtain rfl : l = l' := hl
      exact .setPlace hfallback hfallbacks _

theorem coincidence_holds : coincidence.Holds job job where
  remember := rfl
  depthLimit := rfl
  slack := rfl
  le := by rintro _ _ _ _ ⟨⟩ ⟨⟩; rfl
  place := by rintro _ _ ⟨⟩; rfl
  rest := by rintro _ _ ⟨⟩; rfl
  remaining := by rintro _ _ ⟨⟩; rfl
  moveTo := by rintro _ _ _ _ ⟨⟩ ⟨⟩; rfl
  text := by rintro _ _ _ _ ⟨⟩ ⟨⟩; rfl
  extent h := coincidence.spans_iff.2 (congrArg Placement.extent (Tree.Coincides.place h))
  items := Tree.Coincides.items
  list hspan hitems := coincidence.spans_iff.1 hspan ▸ .list hitems _
  inside {t t' span span'} h hspan := by
    obtain rfl := coincidence.spans_iff.1 hspan
    have hplace : t.span = t'.span := congrArg Placement.span (Tree.Coincides.place h)
    unfold Tree.inside
    rw [hplace]
    exact h.moved _
  produce := Tree.Coincides.produce
  shape := Expr.Coincides.shape
  display {e d} h := by rw [← Expr.display_content e, Expr.same_iff.1 h.same, Expr.display_content d]
  same {e e' d d'} he hd := by
    rw [Bool.eq_iff_iff, Expr.same_iff, Expr.same_iff, Expr.same_iff.1 he.same, Expr.same_iff.1 hd.same]
  rule name := by
    cases job.grammar.rule? name with
    | none => exact .none
    | some body => exact .some (.refl body)
  literal := by rintro _ _ _ _ ⟨⟩; exact coincidence.verdicts_refl _
  pattern := by rintro _ _ _ _ ⟨⟩; exact coincidence.verdicts_refl _
  external := by rintro _ _ _ _ _ ⟨⟩; exact coincidence.verdicts_refl _
  sameSkipping {m m' n n'} hm hn := by
    rw [Bool.eq_iff_iff, SkipMode.same_iff, SkipMode.same_iff, SkipMode.same_iff.1 hm.same, SkipMode.same_iff.1 hn.same]
  skipper {m m'} h := by
    obtain ⟨hsame, hplaces⟩ := h
    cases m <;> cases m' <;> try cases hsame
    · unfold Job.skipper?
      cases job.grammar.skipper with
      | none => exact .none
      | some skipper => exact .some (.refl skipper)
    · exact .some ⟨hsame, hplaces⟩
    · exact .none
  skippingIn {rule m m'} h := by
    unfold Job.skippingIn
    split
    · exact coincidence.skipping_refl _
    · exact coincidence.skipping_refl _
    · exact h

/-! ## Interchange -/

/-- Equal expressions that have what is in their fallbacks in the same places are interchangeable. In any session, with
whatever is remembered in it, they come to the same in the same setting: to equal results whose own and outer spans
are the same at every level, to the same silence or failure, to leaving out the same span, to the same error, or to a
recursion signal with suspended work that goes on with such expressions. They leave the same mark, and the same
is remembered afterwards. -/
theorem Job.interchange (job : Job) {p q : Expr} (hsame : (p == q) = true) (hplaces : p.innerPlaces = q.innerPlaces)
    (levels : Nat) (setting : Setting) (s : Session) :
    coincidence.Attempts ((applyWithin job levels p setting).on s).1 ((applyWithin job levels q setting).on s).1 ∧
      coincidence.Sessions ((applyWithin job levels p setting).on s).2 ((applyWithin job levels q setting).on s).2 :=
  (@coincidence_holds job).applyWithin levels p q setting setting ⟨hsame, hplaces⟩ (coincidence.settings_refl setting)
    s s (coincidence.sessions_refl s)

/-- What one attempt matches, an attempt that coincides with it matches in the same places. -/
theorem Correspondence.Attempts.exists_tree {a b : Attempt} (h : coincidence.Attempts a b) {t : Tree} (ht : a.tree? = some t) :
    ∃ u, b.tree? = some u ∧ t.Coincides u := by
  rcases h with (ht' | _ | _ | _) | _ | _ <;> cases ht
  exact ⟨_, rfl, ht'⟩

namespace Grammar

/-- A missing mark that was made elsewhere, of which a pattern found the text. -/
def foundMark : Tree := .list (.own (.empty ⟨5, 5⟩)) [.found (.own (.empty .origin)) [some ['x']]]

/-- A letter with such a mark. -/
def foundLetter : List Expr := [.repetition (.literal ['q']) ⟨0, some 1⟩ (some foundMark), .literal ['b']]

/-- What is tried first on the second line. -/
def secondLine : Setting := ⟨⟨1, ⟨1, 0⟩⟩, none, .standard⟩

theorem interchange_foundLetter : ∃ t u,
    ((applyWithin (brokenOff .origin) 8 (.merge (markedLetter .origin)) secondLine).on .start).1.tree? = some t ∧
    ((applyWithin (brokenOff .origin) 8 (.merge foundLetter) secondLine).on .start).1.tree? = some u ∧
      t.same u = true ∧ t.places = u.places := by
  have hmatches : ((applyWithin (brokenOff .origin) 8 (.merge (markedLetter .origin)) secondLine).on .start).1.tree?.isSome = true := by
    decide +kernel
  obtain ⟨t, ht⟩ := Option.isSome_iff_exists.1 hmatches
  have hcame := (@Job.interchange (brokenOff .origin) (.merge (markedLetter .origin)) (.merge foundLetter) (by decide) (by decide) 8
    secondLine .start).1
  obtain ⟨u, hu, hsame, hplaces⟩ := hcame.exists_tree ht
  exact ⟨t, u, ht, hu, hsame, hplaces⟩

/-- Marks that claim different places are equal. Where a letter with the one is not read, with the other it is, on the
line that this one claims. -/
theorem interchange_fails : (Expr.merge (markedLetter .origin) == .merge (markedLetter ⟨1, 0⟩)) = true ∧
    ((applyWithin (brokenOff .origin) 8 (.merge (markedLetter .origin)) .start).on .start).1.tree?.isNone = true ∧
    ((applyWithin (brokenOff .origin) 8 (.merge (markedLetter ⟨1, 0⟩)) .start).on .start).1.tree?.map Tree.extent =
      some ⟨⟨1, 0⟩, ⟨1, 1⟩, ['b']⟩ :=
  ⟨by decide, by decide +kernel, by decide +kernel⟩

end Grammar

end Packrat

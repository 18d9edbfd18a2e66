/-
The ways of skipping in a parse: the grammar's own, the ones of the rules that override it, and none.
Whatever is skipped is an expression of the grammar. If the start rule overrides the grammar's own, it does
not come into effect.
-/
import Packrat.Expr.Fallback
import Packrat.Parse.Apply
import Packrat.Proofs.Expr.Content
import Packrat.Proofs.Grammar.Parts

namespace Packrat

/-- The ways of skipping that a grammar knows. -/
inductive Grammar.Mode (g : Grammar) : SkipMode → Prop
  | standard : g.Mode .standard
  | off : g.Mode .off
  | special {rule : String} {s : Expr} : g.override? rule = some (some s) → g.Mode (.special s)

/-- Somewhere in the grammar there is something to skip. -/
def Grammar.Skipping (g : Grammar) : Prop :=
  g.skipper ≠ none ∨ ∃ rule skipper, g.override? rule = some (some skipper)

section

variable {job : Job} {mode mode' : SkipMode}

theorem Grammar.Mode.skippingIn (h : job.grammar.Mode mode) (rule : String) :
    job.grammar.Mode (job.skippingIn rule mode) := by
  unfold Job.skippingIn
  split
  · next s ho => exact .special ho
  · exact .off
  · exact h

theorem Grammar.Mode.has {s : Expr} (h : job.grammar.Mode mode) (hs : job.skipper? mode = some s) :
    job.grammar.Has s := by
  cases h with
  | standard => exact .skipper hs
  | off => cases hs
  | special ho =>
    cases hs
    exact .override ho

theorem Grammar.Mode.skipping {s : Expr} (h : job.grammar.Mode mode) (hs : job.skipper? mode = some s) :
    job.grammar.Skipping := by
  cases h with
  | standard =>
    left
    intro hn
    cases hn.symm.trans hs
  | off => cases hs
  | special ho => exact .inr ⟨_, _, ho⟩

/-- Where expressions that count as the same are the same, so are ways of skipping. -/
theorem Grammar.Mode.eq_of_same {g : Grammar} (hd : ∀ e e', g.Has e → g.Has e' → e.same e' = true → e = e')
    (h : g.Mode mode) (h' : g.Mode mode') (hs : mode.same mode' = true) : mode = mode' := by
  cases h with
  | standard => cases h' <;> first | rfl | cases hs
  | off => cases h' <;> first | rfl | cases hs
  | special ho =>
    cases h' with
    | special ho' => exact congrArg SkipMode.special (hd _ _ (.override ho) (.override ho') hs)
    | _ => cases hs

end

/-! ## Inside of rules -/

namespace Job

/-- The setting in which the body of a rule is tried. -/
def within (job : Job) (name : String) (setting : Setting) : Setting :=
  ⟨setting.position, some name, job.skippingIn name setting.skipping⟩

variable {job : Job} {name : String} {setting setting' : Setting}

/-- The question of the body is the same further inside, where the way of skipping is that of the rule already. -/
theorem of_within {body : Expr} (h : job.skippingIn name setting.skipping = setting.skipping) :
    Question.of body (job.within name setting) = .of body setting := congrArg (Question.mk body setting.location) h

theorem content_skippingIn {mode mode' : SkipMode} (h : mode.content = mode'.content) :
    (job.skippingIn name mode).content = (job.skippingIn name mode').content := by
  unfold skippingIn
  split
  · rfl
  · rfl
  · exact h

/-- Where the same question is asked, so it is of the body of a rule that is entered there. -/
theorem within_beq (job : Job) (name : String) (body : Expr) {e e' : Expr}
    (h : (Question.of e setting == Question.of e' setting') = true) :
    (Question.of body (job.within name setting) == Question.of body (job.within name setting')) = true := by
  simp only [Question.beq_iff, Question.content, Question.of, Question.mk.injEq] at h ⊢
  exact ⟨trivial, h.2.1, content_skippingIn h.2.2⟩

end Job

/-! ## Skippers in effect -/

namespace Grammar

/-- The grammar without a default skipper that the start rule overrides. -/
def inEffect (g : Grammar) : Grammar := { g with skipper := if (g.override? g.start).isSome then none else g.skipper }

variable {g : Grammar}

theorem inEffect_of_override?_eq_none (h : g.override? g.start = none) : g.inEffect = g := by
  unfold inEffect
  rw [h]
  rfl

theorem Has.of_inEffect {e : Expr} (h : g.inEffect.Has e) : g.Has e := by
  induction h with
  | start => exact .start
  | body hb => exact .body hb
  | skipper hs =>
    unfold inEffect at hs
    simp only at hs
    split at hs
    · cases hs
    · exact .skipper hs
  | override ho => exact .override ho
  | part _ hp ih => exact ih.part hp

theorem skippersFrom_start (g : Grammar) :
    g.skippersFrom (.rule g.start) = g.inEffect.skipper.toList ++ g.overrides.flatMap (·.2.toList) := by
  unfold skippersFrom inEffect
  rw [show (Expr.rule g.start).reference?.bind g.override? = g.override? g.start from rfl]
  simp only
  split <;> rfl

theorem skippersFrom_inEffect (g : Grammar) : g.inEffect.skippersFrom (.rule g.start) = g.skippersFrom (.rule g.start) := by
  cases ho : g.override? g.start with
  | none => rw [inEffect_of_override?_eq_none ho]
  | some skipper =>
    unfold skippersFrom
    rw [show (Expr.rule g.start).reference?.bind g.inEffect.override? = some skipper from ho,
      show (Expr.rule g.start).reference?.bind g.override? = some skipper from ho]
    rfl

end Grammar

end Packrat

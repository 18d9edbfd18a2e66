/-
Parsing with neither a memory nor marks on rules. What an expression comes to in this way, and how deep
that goes, depends on the expression, its position and its way of skipping alone, however far apart two
occasions are in a parse, and up to where fallbacks stand. It tells what a question should be answered.
-/
import Mathlib.Order.Filter.AtTopBot.Basic
import Packrat.Proofs.Memory.Echo
import Packrat.Proofs.Session.Calls

namespace Packrat

open Filter Procedure

/-! ## Measures -/

/-- Tries an expression with the given number of levels, but remembers nothing and marks no rule. -/
def bareWithin (job : Job) : (levels : Nat) → Applier
  | 0, _, setting => return .failure (.tooDeep job.options.depthLimit) setting.location
  | levels + 1, e, setting => Eval.nested job none setting.location (evaluate job (bareWithin job levels) e setting)

/-- Where no rule is marked the step has the result and goes as deep as the height. -/
def Eval.Measures {α : Type} (x : Eval α) (a : α) (height : Nat) : Prop :=
  ∀ s : Session, s.entered = none → s.depth ≤ s.counts.deepest → ∃ t, x.on s = (a, t) ∧ t.entered = none ∧
    t.depth = s.depth ∧ t.counts.deepest = max s.counts.deepest (s.depth + height)

namespace Eval.Measures

variable {α : Type} {x : Eval α} {a b : α} {h k : Nat}

theorem unique (hx : x.Measures a h) (hx' : x.Measures b k) : a = b ∧ h = k := by
  obtain ⟨t, hon, -, -, hdeepest⟩ := hx .start rfl (Nat.le_refl 0)
  obtain ⟨t', hon', -, -, hdeepest'⟩ := hx' .start rfl (Nat.le_refl 0)
  obtain ⟨rfl, rfl⟩ := Prod.mk.inj (hon.symm.trans hon')
  refine ⟨rfl, ?_⟩
  have hstart : Session.start.depth = 0 := rfl
  have hzero : Session.start.counts.deepest = 0 := rfl
  omega

theorem of_gives {x : Procedure α} (hx : x.Gives a) (apply : Applier) : (x apply).Measures a 0 := by
  intro s hs hd
  obtain ⟨t, hn, hon⟩ := hx s
  refine ⟨t, hon apply, hn.entered.trans hs, hn.depth, ?_⟩
  rw [hn.deepest, Nat.add_zero, Nat.max_eq_left hd]

theorem of_begins [Breakable α] {job : Job} {x : Procedure α} {wary : Prop} {e : Expr} {setting : Setting}
    {u : Attempt → Procedure α} {apply : Applier} {c : Attempt} (hx : x.Begins job wary e setting u)
    (hc : (apply e setting).Measures c h) (hu : (u c apply).Measures a k) : (x apply).Measures a (max h k) := by
  intro s hs hd
  have hn : ¬ (wary ∧ s.reenters e setting.location = true) := by
    rintro ⟨-, hre⟩
    unfold Session.reenters at hre
    rw [hs] at hre
    split at hre <;> cases hre
  obtain ⟨s', hnear, hon⟩ := hx.run s hn
  have hdepth := hnear.depth
  have hdeepest := hnear.deepest
  obtain ⟨t, hont, hent, hdt, hdeept⟩ := hc s' (hnear.entered.trans hs) (by omega)
  obtain ⟨r, honr, henr, hdr, hdeepr⟩ := hu t hent (by omega)
  refine ⟨r, ?_, henr, by omega, by omega⟩
  rw [hon apply, Eval.on_bind, hont]
  exact honr

theorem nested {job : Job} {work : Eval Attempt} {location : Location} {a : Attempt} (hc : job.options.counting = true)
    (hw : work.Measures a h) : (Eval.nested job none location work).Measures a (h + 1) := by
  intro s hs hd
  have hdeepest : (s.deeper job none location).counts.deepest = max s.counts.deepest (s.depth + 1) := by
    unfold Session.deeper
    rw [if_pos hc]
  have hdepth : (s.deeper job none location).depth = s.depth + 1 := rfl
  obtain ⟨t, hon, hent, hdt, hdeept⟩ := hw (s.deeper job none location) hs (by omega)
  refine ⟨t.back none s, ?_, hent, ?_, ?_⟩
  · rw [on_nested, hon]
  · show t.depth - 1 = s.depth
    omega
  · show t.counts.deepest = _
    omega

end Eval.Measures

/-- Where corresponding expressions measure the same, procedures that concur do. -/
theorem Concur.measures {α β : Type} [Breakable α] [Breakable β] {job job' : Job} {A : Expr → Setting → Expr → Setting → Prop}
    {F : Attempt → Prop} {c : α → β} {Q : α → Prop} {x : Procedure α} {y : Procedure β} {apply apply' : Applier}
    (hx : Concur job job' A F c Q x y) (h : ∀ {e setting e' setting'}, A e setting e' setting' → ∃ a k, F a ∧
      (apply e setting).Measures a k ∧ (apply' e' setting').Measures a k) :
    ∃ a k, Q a ∧ (x apply).Measures a k ∧ (y apply').Measures (c a) k := by
  induction hx with
  | gives hQ hx hy => exact ⟨_, 0, hQ, .of_gives hx _, .of_gives hy _⟩
  | begins hA hx hy _ ih =>
    obtain ⟨a, k, hF, hm, hm'⟩ := h hA
    obtain ⟨b, l, hQ, hl, hl'⟩ := ih a hF
    exact ⟨b, max k l, hQ, .of_begins hx hm hl, .of_begins hy hm' hl'⟩

/-! ## Expressions in the text -/

/-- A job without matchers from outside, with patterns that match beginnings and with fallbacks that, where
they are lists, have their items somewhere in the text. -/
structure Job.Rooted (job : Job) : Prop where
  internal : ∀ key, ¬ job.grammar.Has (.external key)
  anchored : ∀ p, job.grammar.Has (.pattern p) → p.Anchored job.grammar.engine
  fallbacks : ∀ body bounds t, job.grammar.Has (.repetition body bounds (some t)) →
    ∀ items, t.items? = some items → ∀ item ∈ items, item.Lies (Position.Place job.input)

/-- A job without matchers from outside, with patterns that match beginnings and with fallbacks that are
empty. -/
structure Job.Bound (job : Job) : Prop where
  textual : job.grammar.Textual
  anchored : ∀ p, job.grammar.Has (.pattern p) → p.Anchored job.grammar.engine

/-- An expression that may be tried in the course of the parse, at a position of the text. -/
structure Job.Meets (job : Job) (e : Expr) (setting : Setting) : Prop where
  reaches : job.grammar.Reaches (e, setting.skipping)
  sits : setting.position.Sits job.input

section

variable {job : Job} {identical : Prop} {e e' : Expr} {setting setting' : Setting} {a b : Attempt} {h k n : Nat}

theorem Attempt.Definite.firm (ha : a.Definite job.input) : a.Firm (Ground.text job.input) := by
  rcases a with (t | why | span | failure) | suspension | error <;> exact ha

theorem Job.Rooted.bears (hj : job.Rooted) : (Ground.text job.input).Bears job where
  literal text _ hp := (literal_definite hp text).firm
  pattern hhas hp := (pattern_definite hp (hj.anchored _ hhas)).firm
  external hhas _ := absurd hhas (hj.internal _)
  fallback {_ _ t p} hhas hp := by
    -- a fallback is put where the repetition began
    have hplace : (t.movedTo (.empty p.location)).extent = .empty p.location := Tree.extent_movedTo ..
    refine .intro ?_ ?_ fun items hi => hj.fallbacks _ _ t hhas items ?_
    · rw [hplace]
      exact hp.place
    · rw [hplace]
      exact hp.place
    · rw [← hi]
      cases t <;> rfl

theorem Job.Bound.rooted (hj : job.Bound) : job.Rooted where
  internal := hj.textual.internal
  anchored := hj.anchored
  fallbacks _ _ t hhas items hi item hm := by
    have hchildren := Tree.children_eq_nil_of_isNil (hj.textual.fallbacks _ _ t hhas)
    cases t with
    | list =>
      cases hi
      rw [show items = [] from hchildren] at hm
      cases hm
    | text | found | node => cases hi

theorem Job.Meets.asked {next next' : Expr} {there there' : Setting} (hm : job.Meets e setting)
    (hasked : job.Asked (Ground.text job.input) identical (e, setting.skipping) next there next' there') : job.Meets next there :=
  ⟨.tail hm.reaches hasked.1, hasked.2.1⟩

theorem Job.Bound.concurs (hj : job.Bound) (hm : job.Meets e setting) (counting tracing : Bool)
    (htwins : Twins identical e setting e' setting') :
    Concur job (job.observed counting tracing) (job.Asked (Ground.text job.input) identical (e, setting.skipping))
      (Attempt.Firm (Ground.text job.input)) id (Attempt.Firm (Ground.text job.input))
      (fun apply => evaluate job apply e setting)
      (fun apply => evaluate (job.observed counting tracing) apply e' setting') :=
  evaluate_concurs hj.rooted.bears hm.reaches.has.1 hm.sits htwins counting tracing

/-- Twins measure the same, whatever the number of levels. -/
theorem bareWithin_measures (hc : job.options.counting = true) (hj : job.Bound) : ∀ (levels : Nat) {e e' : Expr}
    {setting setting' : Setting}, job.Meets e setting → Twins identical e setting e' setting' →
      ∃ a h, a.Firm (Ground.text job.input) ∧ (bareWithin job levels e setting).Measures a h ∧
        (bareWithin job levels e' setting').Measures a h := by
  intro levels
  induction levels with
  | zero =>
    intro e e' setting setting' hm htwins
    refine ⟨.failure (.tooDeep job.options.depthLimit) setting.location, 0, trivial, .of_gives .pure (bareWithin job 0), ?_⟩
    rw [htwins.location]
    exact .of_gives .pure (bareWithin job 0)
  | succ levels ih =>
    intro e e' setting setting' hm htwins
    obtain ⟨a, h, ha, hx, hy⟩ := (hj.concurs hm job.options.counting job.options.tracing htwins).measures
      (fun hasked => ih (hm.asked hasked) hasked.2.2)
    exact ⟨a, h + 1, ha, .nested hc hx, .nested hc hy⟩

/-! ## What an expression comes to -/

/-- With enough levels, and with nothing remembered and no rule marked, the expression comes to the
attempt and goes as deep as the height. -/
def Job.Bare (job : Job) (e : Expr) (setting : Setting) (a : Attempt) (height : Nat) : Prop :=
  ∀ᶠ n in atTop, (bareWithin job n e setting).Measures a height

namespace Job.Bare

theorem unique (ha : job.Bare e setting a h) (hb : job.Bare e setting b k) : a = b ∧ h = k :=
  let ⟨_, ha, hb⟩ := (ha.and hb).exists
  ha.unique hb

variable (hc : job.options.counting = true) (hj : job.Bound) (hm : job.Meets e setting)
include hc hj hm

theorem firm (ha : job.Bare e setting a h) : a.Firm (Ground.text job.input) := by
  obtain ⟨n, hn⟩ := ha.exists
  obtain ⟨b, k, hb, hmeasures, -⟩ := bareWithin_measures hc hj n hm (show Twins True e setting e setting from .refl e setting)
  exact (hn.unique hmeasures).1 ▸ hb

/-- Twins come to the same. -/
theorem twin (ha : job.Bare e setting a h) (htwins : Twins identical e setting e' setting') : job.Bare e' setting' a h := by
  refine ha.mono fun n hn => ?_
  obtain ⟨b, k, -, hmeasures, hmeasures'⟩ := bareWithin_measures hc hj n hm htwins
  obtain ⟨rfl, rfl⟩ := hn.unique hmeasures
  exact hmeasures'

end Job.Bare

/-- What makes one question makes twins in the text. -/
theorem Job.Meets.twins (hj : job.Bound) (hm : job.Meets e setting) (hm' : job.Meets e' setting') (he : e.same e' = true)
    (hl : setting.location = setting'.location) (hs : setting.skipping.same setting'.skipping = true) :
    Twins False e setting e' setting' := by
  have hexpr {e e' : Expr} (h : job.grammar.Has e) (h' : job.grammar.Has e') (he : e.same e' = true) :
      e.unplaced = e'.unplaced := by
    rw [Expr.unplaced_eq_content (hj.textual.fallsToNil h), Expr.unplaced_eq_content (hj.textual.fallsToNil h')]
    exact Expr.same_iff.1 he
  refine ⟨hexpr hm.reaches.has.1 hm'.reaches.has.1 he, hm.sits.ext hm'.sits hl, ?_, False.elim⟩
  have hmode := hm.reaches.has.2.1
  have hmode' := hm'.reaches.has.2.1
  generalize setting.skipping = mode at hmode hs
  generalize setting'.skipping = mode' at hmode' hs
  cases hmode <;> cases hmode' <;> first | rfl | cases hs | skip
  next ho _ _ ho' => exact congrArg SkipMode.special (hexpr (.override ho) (.override ho') hs)

end

end Packrat

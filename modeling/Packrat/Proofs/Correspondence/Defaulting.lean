/-
The start rule's skipper. All that a parse tries, it tries inside the start rule, so a skipper that this rule puts in
place of the default is in effect wherever no other rule overrides it, as a default would be: also while it is tried
itself, where suspended work is resumed and in the questions that are remembered. So if no other rule does, the
grammar may as well have it for its default. A default that the start rule overrides may as well be left out.
-/
import Packrat.Proofs.Correspondence.Operators
import Packrat.Proofs.Memory.Keeping
import Packrat.Proofs.Session.Calls

namespace Packrat

open Correspondence

namespace Grammar

variable (g : Grammar) (skipper : Option Expr)

/-- The grammar in which the start rule, and no other, puts something in place of the default skipper. -/
def overridingStart : Grammar := { g with overrides := [(g.start, skipper)] }

/-- The grammar with another default skipper, which no rule overrides. -/
def defaultingTo : Grammar := { g with skipper, overrides := [] }

end Grammar

/-- What is skipped inside a rule that overrides the default. -/
def SkipMode.overridden : Option Expr → SkipMode
  | some skipper => .special skipper
  | none => .off

/-- Everything is the same but the ways of skipping. -/
def skippingApart (S : SkipMode → SkipMode → Prop) : Correspondence where
  location := Eq
  position := Eq
  tree := Eq
  expr := Eq
  skipping := S

/-- Everything is the same, but what overrides the default on the one side is the default on the other. -/
def defaulting (skipper : Option Expr) : Correspondence where
  location := Eq
  position := Eq
  tree := Eq
  expr := Eq
  skipping mode mode' := mode = .overridden skipper ∧ mode' = .standard

/-- The job with something else to skip. -/
def Job.skippingElse (job : Job) (skipper : Option Expr) (overrides : List (String × Option Expr)) : Job :=
  { job with grammar := { job.grammar with skipper, overrides } }

namespace skippingApart

variable {S : SkipMode → SkipMode → Prop}

/-! ## The same on both sides -/

theorem spans_iff {a b : Span} : (skippingApart S).Spans a b ↔ a = b := by
  constructor
  · rintro ⟨hstart, hstop, htext⟩
    cases a
    cases b
    simp_all [skippingApart]
  · rintro rfl
    exact ⟨rfl, rfl, rfl⟩

theorem failures_iff {a b : Failure} : (skippingApart S).Failures a b ↔ a = b := by
  constructor
  · rintro ⟨hcause, hstop⟩
    cases a
    cases b
    simp_all [skippingApart]
  · rintro rfl
    exact ⟨rfl, rfl⟩

theorem verdicts_iff {v w : Verdict} : (skippingApart S).Verdicts v w ↔ v = w := by
  constructor
  · rintro (ht | why | hspan | hf)
    · exact congrArg Verdict.matched ht
    · rfl
    · exact congrArg Verdict.omitted (spans_iff.1 hspan)
    · exact congrArg Verdict.failed (failures_iff.1 hf)
  · rintro rfl
    cases v with
    | matched t => exact .matched rfl
    | silent why => exact .silent why
    | omitted span => exact .omitted (spans_iff.2 rfl)
    | failed f => exact .failed (failures_iff.2 rfl)

/-! ## Laws -/

/-- So it is a matter of what is skipped whether the correspondence holds. -/
theorem holds {job : Job} {skipper : Option Expr} {overrides : List (String × Option Expr)}
    (hsame : ∀ {m m' n n'}, S m m' → S n n' → m.same n = m'.same n')
    (hskipper : ∀ {m m'}, S m m' → job.skipper? m = (job.skippingElse skipper overrides).skipper? m')
    (hinside : ∀ {rule m m'}, S m m' →
      S (job.skippingIn rule m) ((job.skippingElse skipper overrides).skippingIn rule m')) :
    (skippingApart S).Holds job (job.skippingElse skipper overrides) where
  remember := rfl
  depthLimit := rfl
  slack := rfl
  le := by rintro _ _ _ _ ⟨⟩ ⟨⟩; rfl
  place := by rintro _ _ ⟨⟩; rfl
  rest := by rintro _ _ ⟨⟩; rfl
  remaining := by rintro _ _ ⟨⟩; rfl
  moveTo := by rintro _ _ _ _ ⟨⟩ ⟨⟩; rfl
  text := by rintro _ _ _ _ ⟨⟩ ⟨⟩; rfl
  extent := by rintro _ _ ⟨⟩; exact spans_iff.2 rfl
  items := by rintro t _ ⟨⟩; exact option_refl (fun _ => List.forall₂_same.2 fun _ _ => rfl) t.items?
  list hspan hitems := by
    have heq : List.Forall₂ Eq _ _ := hitems
    rw [List.forall₂_eq_eq_eq] at heq
    rw [spans_iff.1 hspan, heq]
    rfl
  inside := by
    rintro t _ span span' ⟨⟩ hspan
    rw [spans_iff.1 hspan]
    rfl
  produce := by
    rintro rule t _ ⟨⟩
    show ExceptRel Eq Eq (job.grammar.produce rule t) (job.grammar.produce rule t)
    cases job.grammar.produce rule t with
    | ok u => exact .ok rfl
    | error error => exact .error rfl
  shape := by
    rintro e _ ⟨⟩
    refine .refl (fun _ _ => rfl) fun t _ l l' hl => ?_
    obtain rfl : l = l' := hl
    rfl
  display := by rintro _ _ ⟨⟩; rfl
  same := by rintro _ _ _ _ ⟨⟩ ⟨⟩; rfl
  rule name := option_refl (fun _ => rfl) (job.grammar.rule? name)
  literal := by rintro _ _ _ _ ⟨⟩; exact verdicts_iff.2 rfl
  pattern := by rintro _ _ _ _ ⟨⟩; exact verdicts_iff.2 rfl
  external := by rintro _ _ _ _ _ ⟨⟩; exact verdicts_iff.2 rfl
  sameSkipping := hsame
  skipper h := by
    rw [hskipper h]
    exact option_refl (fun _ => rfl) _
  skippingIn := hinside

/-! ## Whole parses -/

/-- Attempts that correspond have the same result, also if their verdicts are still to be remembered. -/
theorem resultOf_eq {root : Expr} {a a' : Attempt} (h : (skippingApart S).Attempts a a') {job job' : Job} {q q' : Question} :
    Job.resultOf root (a.awaiting job q) = Job.resultOf root (a'.awaiting job' q') := by
  rcases h with hv | hs | error
  · exact congrArg (fun v => Job.resultOf root (.settled v)) (verdicts_iff.1 hv)
  · cases hs <;> rfl
  · rfl

/-- A rule is worked out at the beginning of the text. If ways of skipping inside it correspond, what comes of its body
corresponds; only the questions on the rule itself differ. So the results are the same. -/
theorem run_result {job job' : Job} (hK : (skippingApart S).Holds job job') {name : String}
    (hinside : S (job.skippingIn name .standard) (job'.skippingIn name .standard)) :
    (job.run (.rule name)).result = (job'.run (.rule name)).result := by
  suffices h : ∀ levels, Job.resultOf (.rule name) ((applyWithin job levels (.rule name) .start).on .start).1 =
      Job.resultOf (.rule name) ((applyWithin job' levels (.rule name) .start).on .start).1 by
    show Job.resultOf _ ((applyWithin job job.options.depthLimit _ _).on _).1 = _
    rw [hK.depthLimit]
    exact h _
  intro levels
  cases levels with
  | zero =>
    unfold applyWithin
    rw [hK.depthLimit]
  | succ levels =>
    have hsteps : (skippingApart S).Steps (skippingApart S).Attempts (tryRule job (applyWithin job levels) name .start)
        (tryRule job' (applyWithin job' levels) name .start) :=
      hK.tryRuleInside (hK.applyWithin levels) rfl hinside
    have hsessions : (skippingApart S).Sessions ((Session.start.missed job).deeper job (some name) .origin)
        ((Session.start.missed job').deeper job' (some name) .origin) := by
      refine ⟨fun l l' hl => ?_, .some ⟨rfl, rfl⟩⟩
      show List.Forall₂ _ (Memory.empty.cell l) (Memory.empty.cell l')
      rw [Memory.cell_empty, Memory.cell_empty]
      exact .nil
    have hcame := (hsteps _ _ hsessions).1
    have hunknown (q : Question) : Session.start.memory.find? q = none := Memory.find?_empty q
    show Job.resultOf _ ((remembering job (evaluate job (applyWithin job levels)) _ _).on _).1 =
      Job.resultOf _ ((remembering job' (evaluate job' (applyWithin job' levels)) _ _).on _).1
    rw [on_remembering (fun _ => hunknown _) rfl rfl, on_remembering (fun _ => hunknown _) rfl rfl]
    exact resultOf_eq hcame

end skippingApart

variable {g : Grammar} {skipper : Option Expr}

/-! ## A skipper for a default -/

section

variable {job : Job}

theorem Job.skippingIn_overridingStart {mode : SkipMode} {rule : String}
    (hg : job.grammar = g.overridingStart skipper) (h : rule = g.start ∨ mode = .overridden skipper) :
    job.skippingIn rule mode = .overridden skipper := by
  unfold skippingIn
  rw [hg]
  unfold Grammar.override? Grammar.overridingStart
  rw [List.lookup_cons]
  by_cases hrule : rule = g.start
  · subst hrule
    simp only [beq_self_eq_true]
    cases skipper <;> rfl
  · simp only [beq_eq_false_iff_ne.2 hrule]
    exact h.resolve_left hrule

theorem defaulting_holds (hg : job.grammar = g.overridingStart skipper) :
    (defaulting skipper).Holds job (job.skippingElse skipper []) := by
  refine skippingApart.holds ?_ ?_ ?_
  · rintro _ _ _ _ ⟨rfl, rfl⟩ ⟨rfl, rfl⟩
    exact SkipMode.same_iff.2 rfl
  · rintro _ _ ⟨rfl, rfl⟩
    cases skipper <;> rfl
  · rintro rule _ _ ⟨rfl, rfl⟩
    exact ⟨Job.skippingIn_overridingStart hg (.inr rfl), rfl⟩

end

/-- A default that is overridden does not come into effect, so it does not count for how long loops may go on. -/
theorem Grammar.skippersFrom_overridingStart :
    (g.overridingStart skipper).skippersFrom (.rule g.start) = (g.defaultingTo skipper).skippersFrom (.rule g.start) := by
  have hoverrides : (g.overridingStart skipper).override? g.start = some skipper := by
    unfold override? overridingStart
    rw [List.lookup_cons, beq_self_eq_true]
  have hdefaults : (g.defaultingTo skipper).override? g.start = none := rfl
  unfold skippersFrom
  rw [show (Expr.rule g.start).reference?.bind (g.overridingStart skipper).override? = some skipper from hoverrides,
    show (Expr.rule g.start).reference?.bind (g.defaultingTo skipper).override? = none from hdefaults]
  simp [overridingStart, defaultingTo]

namespace Grammar

/-- What overrides the default skipper in the start rule, and in no other, may as well be the default: whatever is
skipped otherwise, the result is the same, with all its spans, its error, or the complaint that the start rule has no
alternative to begin with. -/
theorem parse_overridingStart (g : Grammar) (skipper : Option Expr) (options : Options) (externals : Externals)
    (input : List Char) :
    ((g.overridingStart skipper).parse options externals input).result =
      ((g.defaultingTo skipper).parse options externals input).result := by
  let job := Job.new (g.overridingStart skipper) (.rule g.start) options externals input
  have hjob : Job.new (g.defaultingTo skipper) (.rule g.start) options externals input = job.skippingElse skipper [] := by
    unfold Job.new fallbackSize
    rw [show (g.defaultingTo skipper).skippersFrom _ = (g.overridingStart skipper).skippersFrom _ from
      skippersFrom_overridingStart.symm]
    rfl
  show (job.run _).result = ((Job.new (g.defaultingTo skipper) (.rule g.start) options externals input).run _).result
  rw [hjob]
  exact skippingApart.run_result (defaulting_holds rfl) ⟨Job.skippingIn_overridingStart rfl (.inl rfl), rfl⟩

/-! ## A default that is overridden -/

/-- Where the default is not in effect, it does not matter. -/
theorem overridden_holds {job : Job} : (skippingApart fun mode mode' => mode = mode' ∧ mode ≠ .standard).Holds job
    (job.skippingElse skipper job.grammar.overrides) := by
  refine skippingApart.holds ?_ ?_ ?_
  · rintro _ _ _ _ ⟨rfl, -⟩ ⟨rfl, -⟩
    rfl
  · rintro mode _ ⟨rfl, hmode⟩
    cases mode with
    | standard => exact absurd rfl hmode
    | special | off => rfl
  · rintro rule mode _ ⟨rfl, hmode⟩
    refine ⟨rfl, ?_⟩
    unfold Job.skippingIn
    split
    · nofun
    · nofun
    · exact hmode

/-- A default skipper that the start rule overrides may as well be left out. -/
theorem parse_inEffect (g : Grammar) (options : Options) (externals : Externals) (input : List Char) :
    (g.parse options externals input).result = (g.inEffect.parse options externals input).result := by
  cases ho : g.override? g.start with
  | none => rw [inEffect_of_override?_eq_none ho]
  | some skipper =>
    let job := Job.new g (.rule g.start) options externals input
    have hjob : Job.new g.inEffect (.rule g.start) options externals input = job.skippingElse none g.overrides := by
      unfold Job.new fallbackSize
      rw [skippersFrom_inEffect]
      unfold inEffect
      rw [ho]
      rfl
    have hinside : job.skippingIn g.start .standard ≠ .standard := by
      unfold Job.skippingIn
      rw [show job.grammar.override? g.start = some skipper from ho]
      cases skipper <;> nofun
    show (job.run _).result = ((Job.new g.inEffect (.rule g.start) options externals input).run _).result
    rw [hjob]
    exact skippingApart.run_result overridden_holds ⟨rfl, hinside⟩

end Grammar

end Packrat

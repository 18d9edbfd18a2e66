/-
What a question leaves out makes no difference. As long as no rule comes back to itself and the nesting
stays within its limit, an expression that is tried at one location and under one way of skipping is
tried at one position and comes to one attempt, whichever rule is around it, however deep it is nested
and whatever was tried before.
-/
import Packrat.Proofs.Memory.Gain
import Packrat.Proofs.Memory.Origins

namespace Packrat

open Filter Procedure

section

variable {job : Job} {root : Expr} {levels : Nat} {call : Call} {e : Expr} {setting : Setting}

/-- In sessions from which so many levels are left, expressions come to what they come to by themselves. -/
theorem applyWithin_obeys (hc : job.options.counting = true) (hj : job.Bound) (hm : job.Meets e setting) (levels : Nat) :
    (applyWithin job levels).Obeys job (.strict job.options.depthLimit)
      (job.Asked (Ground.text job.input) True (e, setting.skipping)) (Attempt.Firm (Ground.text job.input))
      (·.Sound job levels) where
  persists := .applyWithin levels
  near hn hs := hs.near hn
  signals _ _ _ := ⟨hc, fun _ => .inr⟩
  attempt hasked hs := by
    refine (applyWithin_gains hc hj levels (hm.asked hasked) hs).imp id fun ⟨hfirm, h, _, hgains⟩ => ?_
    exact ⟨hfirm, hgains.sound hs⟩

/-- Each call of a parse is also made, in a session that is alike, when counts are kept. If the alarm does
not ring in that parse, it does not ring in the call. -/
theorem Job.Applies.counted (hj : job.Bound) {tracing : Bool} (h : job.Applies (.rule job.grammar.start) levels call)
    (hn : ¬ (Alarm.strict job.options.depthLimit).rung
      ((apply (job.observed true tracing) (.rule job.grammar.start) .start).on .start).2.counts) :
    job.Meets call.expr call.setting ∧ ∃ t, call.session.Alike t ∧ t.Sound (job.observed true tracing) levels ∧
      ¬ (Alarm.strict job.options.depthLimit).rung
        ((applyWithin (job.observed true tracing) levels call.expr call.setting).on t).2.counts := by
  let counted := job.observed true tracing
  have hj' : counted.Bound := ⟨hj.textual, hj.anchored⟩
  induction h with
  | root =>
    exact ⟨⟨.refl, Position.sits_origin⟩, .start, .refl _, ⟨Nat.zero_add _, Nat.le_refl 0, .empty⟩, hn⟩
  | @inner levels call next _ hcalls ih =>
    obtain ⟨hm, t, halike, hs, hn⟩ := ih
    obtain ⟨hf, hre, hcalls⟩ := calls_evaluate hcalls
    have hm' : counted.Meets call.expr call.setting := ⟨hm.reaches, hm.sits⟩
    have hf' : counted.options.remember = true → t.memory.find? (.of call.expr call.setting) = none := fun hr =>
      halike.memory ▸ hf hr
    have hre' : t.reenters call.expr call.setting.location = false := by
      rw [← hre]
      unfold Session.reenters
      rw [halike.entered]
    have hdeeper : ((call.session.missed job).deeper job call.expr.reference? call.setting.location).Alike
        ((t.missed counted).deeper counted call.expr.reference? call.setting.location) :=
      ⟨halike.memory, congrArg (Mark.inside · _ _) halike.entered⟩
    have hn' : ¬ (Alarm.strict job.options.depthLimit).rung ((evaluate counted (applyWithin counted levels) call.expr
        call.setting).on ((t.missed counted).deeper counted call.expr.reference? call.setting.location)).2.counts := by
      intro hrung
      refine hn ?_
      rw [applyWithin, on_remembering hf' hre' rfl]
      exact hrung
    have htwins : Twins True call.expr call.setting call.expr call.setting := .refl _ _
    obtain ⟨hasked, t', halike', hs', hn''⟩ := (hj.concurs hm true tracing htwins).calls
      (fun hasked => hasked.2.2.identity trivial) (.applyWithin levels) (applyWithin_obeys rfl hj' hm' levels) hdeeper
      (hs.deeper rfl _ _) hn' hcalls
    exact ⟨hm.asked hasked, t', halike', hs', hn''⟩

end

/-- The text, by the locations of its questions, tells expressions all that they depend on. -/
theorem Grammar.applications_agree {g : Grammar} (hg : g.Textual) (ha : ∀ p, g.Has (.pattern p) → p.Anchored g.engine)
    {options : Options} {externals : Externals} {input : List Char}
    (hd : (g.counts options externals input).deepest < options.depthLimit) (hr : (g.counts options externals input).reentries = 0)
    {levels levels' : Nat} {call call' : Call}
    (h : (Job.new g (.rule g.start) options externals input).Applies (.rule g.start) levels call)
    (h' : (Job.new g (.rule g.start) options externals input).Applies (.rule g.start) levels' call')
    (he : call.expr.same call'.expr = true) (hl : call.setting.location = call'.setting.location)
    (hs : call.setting.skipping.same call'.setting.skipping = true) :
    call.setting.position = call'.setting.position ∧
      call.outcome (Job.new g (.rule g.start) options externals input) levels =
        call'.outcome (Job.new g (.rule g.start) options externals input) levels' := by
  let job := Job.new g (.rule g.start) options externals input
  let counted := job.observed true options.tracing
  have hj : job.Bound := ⟨hg, ha⟩
  have hj' : counted.Bound := ⟨hg, ha⟩
  have hn : ¬ (Alarm.strict job.options.depthLimit).rung ((apply counted (.rule g.start) .start).on .start).2.counts := by
    rintro (hdeep | hre)
    · exact absurd hd (Nat.not_lt.2 hdeep)
    · exact absurd hr (Nat.ne_of_gt hre)
  -- each of the calls comes to what its expression comes to by itself
  have hbare {levels : Nat} {call : Call} (h : job.Applies (.rule g.start) levels call) :
      counted.Meets call.expr call.setting ∧ ∃ k, counted.Bare call.expr call.setting (call.outcome job levels) k := by
    obtain ⟨hm, t, halike, hs, hn⟩ := h.counted hj hn
    have hm' : counted.Meets call.expr call.setting := ⟨hm.reaches, hm.sits⟩
    obtain ⟨-, k, hbare, -⟩ := (applyWithin_gains rfl hj' levels hm' hs).resolve_left hn
    refine ⟨hm', k, ?_⟩
    unfold Call.outcome
    rw [(Eval.Agree.applyWithin levels call.expr call.setting _ t halike).1]
    exact hbare
  obtain ⟨hm, k, hk⟩ := hbare h
  obtain ⟨hm', k', hk'⟩ := hbare h'
  have htwins := hm.twins hj' hm' he hl hs
  exact ⟨htwins.position, ((hk.twin rfl hj' hm htwins).unique hk').1⟩

namespace Grammar

/-- The letter `a` by way of one rule and then `b`, or by way of another one and then `c`. -/
def ofDetours : Grammar where
  start := "s"
  rules := [
    ("s", .choice [.sequence [.rule "x", .literal ['b']], .sequence [.rule "y", .literal ['c']]]),
    ("x", .literal ['a']),
    ("y", .literal ['a'])]
  skipper := none
  overrides := []
  productions := []
  kinds := .empty

/-- The job of reading `ac` with it. -/
def readDetours : Job := Job.new ofDetours (.rule "s") ⟨false, 1024, true, false⟩ .nothing ['a', 'c']

theorem applications_agree_detours : ∃ levels levels' call call', readDetours.Applies (.rule "s") levels call ∧
    readDetours.Applies (.rule "s") levels' call' ∧ call.setting.rule = some "x" ∧ call'.setting.rule = some "y" ∧
      call.setting.position = call'.setting.position ∧
        call.outcome readDetours levels = call'.outcome readDetours levels' := by
  -- the letter is tried in either rule, at the beginning
  let letter (rule : String) (e : Expr) (setting : Setting) : Bool := decide (e.same (.literal ['a']) = true ∧
    setting.rule = some rule ∧ setting.location = .origin ∧ setting.skipping.same .standard = true)
  obtain ⟨levels, call, h, hs⟩ := readDetours.exists_applies (.rule "s") (fun _ call => letter "x" call.expr call.setting)
    fun heq => absurd (congrArg Attempt.holds heq) (by decide +kernel)
  obtain ⟨levels', call', h', hs'⟩ := readDetours.exists_applies (.rule "s") (fun _ call => letter "y" call.expr call.setting)
    fun heq => absurd (congrArg Attempt.holds heq) (by decide +kernel)
  obtain ⟨he, hrule, hl, hm⟩ := of_decide_eq_true hs
  obtain ⟨he', hrule', hl', hm'⟩ := of_decide_eq_true hs'
  have hsame : call.expr.same call'.expr = true := Expr.same_iff.2 ((Expr.same_iff.1 he).trans (Expr.same_iff.1 he').symm)
  have hmode : call.setting.skipping.same call'.setting.skipping = true :=
    SkipMode.same_iff.2 ((SkipMode.same_iff.1 hm).trans (SkipMode.same_iff.1 hm').symm)
  exact ⟨levels, levels', call, call', h, h', hrule, hrule', applications_agree (textual_of_check (by decide +kernel))
    (anchored_of_check (by decide +kernel)) (by decide +kernel) (by decide +kernel) h h' hsame (hl.trans hl'.symm) hmode⟩

/-! ## Patterns that match further on -/

/-- With one alternative or the other, a letter is tried on the second line. -/
def onSecondLine : List Definition := [
  .rule "s" (.choice [.sequence [.literal ['\n'], .literal ['c']],
    .sequence [.pattern strayLetter, .literal ['b', '\n'], .literal ['c']]]),
  .start "s"]

/-- The grammar that this gives. -/
def ofSecondLine : Grammar where
  start := "s"
  rules := [("s", .choice [.sequence [.literal ['\n'], .literal ['c']],
    .sequence [.pattern strayLetter, .literal ['b', '\n'], .literal ['c']]])]
  skipper := none
  overrides := []
  productions := []
  kinds := .empty

/-- The pattern takes a line break for the letter, so the second line begins where the third one does. -/
theorem applications_disagree : ∃ g, ofDefinitions onSecondLine = .ok g ∧ g.Textual ∧
    ∃ job, job = Job.new g (.rule g.start) ⟨false, 1024, true, false⟩ .nothing ['\n', 'b', '\n', 'c'] ∧
      (job.run (.rule g.start)).counts.reentries = 0 ∧ (job.run (.rule g.start)).counts.deepest < job.options.depthLimit ∧
        ∃ levels levels' call call', job.Applies (.rule g.start) levels call ∧ job.Applies (.rule g.start) levels' call' ∧
          call.expr.same call'.expr = true ∧ call.setting.location = call'.setting.location ∧
            call.setting.skipping.same call'.setting.skipping = true ∧ call.setting.position ≠ call'.setting.position := by
  refine ⟨ofSecondLine, rfl, textual_of_check (by decide +kernel), _, rfl, by decide +kernel, by decide +kernel, ?_⟩
  -- the letter is tried behind one character and behind three
  let letter (offset : Nat) (e : Expr) (setting : Setting) : Bool := decide (e.same (.literal ['c']) = true ∧
    setting.position = ⟨offset, ⟨1, 0⟩⟩ ∧ setting.skipping.same .standard = true)
  obtain ⟨levels, call, h, hs⟩ := Job.exists_applies
    (.new ofSecondLine (.rule "s") ⟨false, 1024, true, false⟩ .nothing ['\n', 'b', '\n', 'c'])
    (.rule "s") (fun _ call => letter 1 call.expr call.setting)
    fun heq => absurd (congrArg Attempt.holds heq) (by decide +kernel)
  obtain ⟨levels', call', h', hs'⟩ := Job.exists_applies
    (.new ofSecondLine (.rule "s") ⟨false, 1024, true, false⟩ .nothing ['\n', 'b', '\n', 'c'])
    (.rule "s") (fun _ call => letter 3 call.expr call.setting)
    fun heq => absurd (congrArg Attempt.holds heq) (by decide +kernel)
  obtain ⟨he, hp, hm⟩ := of_decide_eq_true hs
  obtain ⟨he', hp', hm'⟩ := of_decide_eq_true hs'
  refine ⟨levels, levels', call, call', h, h', Expr.same_iff.2 ((Expr.same_iff.1 he).trans (Expr.same_iff.1 he').symm), ?_,
    SkipMode.same_iff.2 ((SkipMode.same_iff.1 hm).trans (SkipMode.same_iff.1 hm').symm), ?_⟩
  · unfold Setting.location
    rw [hp, hp']
  · rw [hp, hp']
    decide

end Grammar

end Packrat

/-
Trying any expression. Every kind of expression is defined by what it does with the attempts of its
parts; the knot is tied over the levels of nesting that are still allowed, so that trying an
expression is defined by recursion on their number.
-/
import Packrat.Parse.Alternatives
import Packrat.Parse.Leaf
import Packrat.Parse.Lookahead
import Packrat.Parse.Rounds

namespace Packrat

/-- The skipper in effect inside a rule: the rule's own, or else the one around it. -/
def Job.skippingIn (job : Job) (rule : String) (around : SkipMode) : SkipMode :=
  match job.grammar.override? rule with
  | some (some skipper) => .special skipper
  | some none => .off
  | none => around

/-- Where nothing is skipped, nothing is skipped inside a rule without a skipper of its own. -/
theorem Job.skippingIn_eq_none {job : Job} {rule : String} {around : SkipMode}
    (ho : ∀ rule skipper, job.grammar.override? rule ≠ some (some skipper)) (h : job.skipper? around = none) :
    job.skipper? (job.skippingIn rule around) = none := by
  unfold skippingIn
  split
  · next skipper hs => exact absurd hs (ho _ _)
  · rfl
  · exact h

/-- Tries the body of a rule. -/
def tryRule (job : Job) (apply : Applier) (name : String) (setting : Setting) : Eval Attempt :=
  match job.grammar.rule? name with
  | none => return .broken (.unknownRule name)
  | some body => do
    Eval.emit job (.enter name setting.location)
    Eval.count job fun c => { c with rules := c.rules + 1 }
    let inside := ⟨setting.position, some name, job.skippingIn name setting.skipping⟩
    let attempt := wrapAttempt job name (← apply body inside)
    Eval.emit job (.leave name attempt.holds)
    return attempt

/-- Tries an expression, given a way to try its parts. -/
def evaluate (job : Job) (apply : Applier) : Applier := fun e setting =>
  match e with
  | .literal text => return .settled (literalVerdict text (setting.rest job.input) setting.location)
  | .pattern pattern =>
    return .settled (patternVerdict job.grammar.engine pattern (setting.rest job.input) setting.location)
  | .external key =>
    return .settled (externalVerdict (job.externals key) (setting.rest job.input) setting.location)
  | .rule name => tryRule job apply name setting
  | .sequence parts => trySequence job apply parts false setting
  | .merge parts => trySequence job apply parts true setting
  | .choice alternatives => tryChoice job apply setting alternatives .nothing
  | .repetition body bounds fallback => tryRepetition job apply body bounds fallback setting
  | .ahead body => return aheadAttempt job body setting (← apply body setting)
  | .notAhead body => return notAheadAttempt job body setting (← apply body setting)
  | .omission body => return omissionAttempt job setting (← apply body setting)

/-- Tries an expression with the given number of levels of nesting still allowed. -/
def applyWithin (job : Job) : (levels : Nat) → Applier
  | 0, _, setting => return .failure (.tooDeep job.options.depthLimit) setting.location
  | levels + 1, e, setting => remembering job (evaluate job (applyWithin job levels)) e setting

/-- Tries an expression with all levels of nesting allowed. -/
def apply (job : Job) : Applier := applyWithin job job.options.depthLimit

end Packrat

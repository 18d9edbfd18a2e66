/-
What comes of trying an expression. Besides matching or not, an attempt can find that a rule has
come back to itself without taking any input; what was under way then becomes a suspension, which
is resumed as soon as another alternative of the rule supplies a result to begin with.
-/
import Packrat.Failure.Basic
import Packrat.Parse.Accumulator
import Packrat.Parse.Setting

namespace Packrat

/-- Why an expression that holds has no result. -/
inductive Silence where
  /-- It matched the empty text. -/
  | tookNothing
  /-- It looked ahead and found what it wanted. -/
  | ahead
  /-- It looked ahead and did not find what it feared. -/
  | notAhead
deriving DecidableEq

/-- A definite answer, which may be remembered. -/
inductive Verdict where
  | matched (tree : Tree)
  | silent (why : Silence)
  /-- Input was taken that is left out of the result. -/
  | omitted (span : Span)
  | failed (failure : Failure)

/-- The expression holds, with a result or without. -/
def Verdict.holds : Verdict → Bool
  | .matched _ | .silent _ | .omitted _ => true
  | .failed _ => false

/-- What a remembered verdict answers: does the expression match at the location, under the
skipper? -/
structure Question where
  expr : Expr
  location : Location
  skipping : SkipMode

instance : BEq Question :=
  ⟨fun p q => p.location == q.location && p.expr == q.expr && p.skipping == q.skipping⟩

/-- A sequence or merge in progress. -/
structure Run where
  parts : List Expr
  /-- The items of list results are collected one by one. -/
  flatten : Bool
  setting : Setting
  collected : Accumulator
  /-- How many parts are done. -/
  done : Nat
  /-- Why the part before had no result, if it had none. -/
  silence : Option Silence
  /-- It was suspended at its first part, so its result grows when it is complete. -/
  growing : Bool
  /-- It waits for a result of another alternative of the rule around it. -/
  needsSeed : Bool

/-- Work that waits for the outcome of other work. -/
inductive Waiting where
  /-- A sequence waits for its current part. -/
  | sequence (run : Run)
  /-- The verdict on a question is to be remembered. -/
  | memory (question : Question)
  /-- A rule is to wrap its result. -/
  | wrapping (rule : String)

/-- Suspended work, innermost first. -/
abbrev Suspension := List Waiting

/-- What came of trying an expression. -/
inductive Attempt where
  | settled (verdict : Verdict)
  /-- A rule came back to itself; the suspension, if there is one, can continue with a result. -/
  | recursion (suspension : Option Suspension)
  /-- The grammar turned out to be malformed. -/
  | broken (error : GrammarError)

/-- The expression holds, with a result or without. -/
def Attempt.holds : Attempt → Bool
  | .settled verdict => verdict.holds
  | .recursion _ | .broken _ => false

/-- An attempt that failed for a cause, at a location. -/
def Attempt.failure (cause : Cause) (stop : Location) : Attempt := .settled (.failed ⟨cause, stop⟩)

end Packrat

/-
Remembered verdicts and the mark of the rule entered last. Only verdicts are remembered: a recursion
signal depends on the rules under way, and a grammar error ends the parse.
-/
import Packrat.Parse.Session

namespace Packrat

/-- The question that an expression in a setting asks. -/
def Question.of (e : Expr) (setting : Setting) : Question := ⟨e, setting.location, setting.skipping⟩

/-- Whether an expression refers to the rule entered last, at the place where it was entered. -/
def Session.reenters (s : Session) (e : Expr) (location : Location) : Bool :=
  match e with
  | .rule name => s.entered == some (name, location)
  | _ => false

namespace Eval

/-- Looks for a remembered verdict, if verdicts are remembered. -/
def lookUp (job : Job) (question : Question) : Eval (Option Verdict) := do
  if job.options.remember then
    match (← get).memory.find? question with
    | some verdict =>
      count job fun c => { c with hits := c.hits + 1 }
      emit job (.answered question.location)
      return some verdict
    | none =>
      count job fun c => { c with misses := c.misses + 1 }
      return none
  else return none

/-- Remembers a verdict, or has a suspension remember the one that it will come to. -/
def remember (job : Job) (question : Question) (attempt : Attempt) : Eval Attempt := do
  if job.options.remember then
    match attempt with
    | .settled verdict =>
      modify fun s => { s with memory := s.memory.insert question verdict }
      return attempt
    | .recursion (some suspension) => return .recursion (some (suspension ++ [.memory question]))
    | .recursion none | .broken _ => return attempt
  else return attempt

/-- Reports that a rule came back to itself. -/
def reportReentry (job : Job) (rule : String) (location : Location) : Eval Unit := do
  note (.reentry rule location)
  count job fun c => { c with reentries := c.reentries + 1 }
  emit job (.reentry rule location)

/-- Does some work one level deeper, and with the mark on `rule` if there is one; depth and mark
are put back afterwards. -/
def nested (job : Job) (rule : Option String) (location : Location) (work : Eval Attempt) : Eval Attempt := do
  let depth := (← get).depth + 1
  let entered := (← get).entered
  modify fun s => { s with depth, entered := (rule.map (·, location)).or s.entered }
  count job fun c => { c with deepest := max c.deepest depth }
  let attempt ← work
  modify fun s => { s with
    depth := s.depth - 1
    entered := if rule.isSome then entered else s.entered }
  return attempt

end Eval

/-- Tries expressions by way of `work`, with remembered verdicts. A reference to the rule entered
last, at the same place, is not tried but signalled. -/
def remembering (job : Job) (work : Applier) : Applier := fun e setting => do
  let question := Question.of e setting
  match ← Eval.lookUp job question with
  | some verdict => return .settled verdict
  | none =>
    if (← get).reenters e setting.location then
      Eval.reportReentry job (e.reference?.getD "") setting.location
      return .recursion none
    else
      let attempt ← Eval.nested job e.reference? setting.location (work e setting)
      Eval.remember job question attempt

end Packrat

/-
Resuming suspended work. The innermost work is given a result, and what comes of it goes to the
next work out.
-/
import Packrat.Parse.Run

namespace Packrat

/-- Wraps the result of a rule, or has a suspension wrap the one that it will come to. -/
def wrapAttempt (job : Job) (rule : String) : Attempt → Attempt
  | .settled (.matched tree) =>
    match job.grammar.produce rule tree with
    | .ok tree => .settled (.matched tree)
    | .error error => .broken error
  | .recursion (some suspension) => .recursion (some (suspension ++ [.wrapping rule]))
  | attempt => attempt

/-- Gives the work that waits what it waits for. -/
def Waiting.resume (job : Job) (apply : Applier) (attempt : Attempt) : Waiting → Eval Attempt
  | .sequence run => run.resume job apply attempt
  | .memory question => Eval.remember job question attempt
  | .wrapping rule => return wrapAttempt job rule attempt

/-- Resumes all work in turn. If some of it is suspended again, the work not yet resumed waits
behind it. -/
def Suspension.resume (job : Job) (apply : Applier) : Suspension → Attempt → Eval Attempt
  | [], attempt => return attempt
  | work :: others, attempt => do
    match ← work.resume job apply attempt with
    | .recursion (some suspension) => return .recursion (some (suspension ++ others))
    | attempt => Suspension.resume job apply others attempt

end Packrat

/-
Looking ahead without taking input, and taking input without a result. None of this can be
suspended: a recursion signal passes through without its suspension.
-/
import Packrat.Parse.Session

namespace Packrat

/-- What comes of looking ahead for what must be there. -/
def aheadAttempt (job : Job) (body : Expr) (setting : Setting) : Attempt → Attempt
  | .settled verdict =>
    if verdict.holds then .settled (.silent .ahead)
    else .failure (.missing body.display (setting.rest job.input)) setting.location
  | .recursion _ => .recursion none
  | .broken error => .broken error

/-- What comes of looking ahead for what must not be there. -/
def notAheadAttempt (job : Job) (body : Expr) (setting : Setting) : Attempt → Attempt
  | .settled verdict =>
    if verdict.holds then .failure (.forbidden body.display (setting.rest job.input)) setting.location
    else .settled (.silent .notAhead)
  | .recursion _ => .recursion none
  | .broken error => .broken error

/-- What comes of leaving out what an expression takes. -/
def omissionAttempt (job : Job) (setting : Setting) : Attempt → Attempt
  | .settled (.matched tree) =>
    let stop := setting.position.moveTo job.input tree.extent.stop
    .settled (.omitted (.ofPositions job.input setting.position stop))
  | .settled (.silent .tookNothing) => .settled (.omitted (.empty setting.location))
  | .recursion _ => .recursion none
  | attempt => attempt

end Packrat

/-
Ordered choice. The first alternative that holds decides. Failures are kept in mind, so that when
all alternatives are exhausted the one that got furthest is reported. So is a recursion signal: if a
later alternative has a result, the suspended work continues with it.
-/
import Packrat.Parse.Suspension

namespace Packrat

/-- What a choice keeps in mind of the alternatives before. -/
structure Tried where
  /-- The failure that got furthest, the later one of two that got equally far. -/
  furthest : Option Failure
  /-- The latest recursion signal with its suspension. -/
  recursion : Option (Option Suspension)

namespace Tried

/-- No alternatives were tried. -/
def nothing : Tried := ⟨none, none⟩

/-- One more alternative failed. -/
def failed (tried : Tried) (failure : Failure) : Tried :=
  if tried.furthest.all failure.reaches then { tried with furthest := some failure } else tried

/-- What comes of a choice without further alternatives. -/
def exhausted (tried : Tried) (rest : List Char) (location : Location) : Attempt :=
  match tried.furthest, tried.recursion with
  | some failure, _ => .settled (.failed (.exhausted rest failure))
  | none, some suspension => .recursion suspension
  | none, none => .failure .emptyChoice location

end Tried

/-- Resumes suspended work with a result that does not depend on it. If nothing comes of the resumed
work, that result stands. -/
def plantSeed (job : Job) (apply : Applier) (suspension : Suspension) (seed : Tree) : Eval Attempt := do
  let location := seed.extent.stop
  Eval.note (.resuming suspension.length location)
  Eval.emit job (.resume location)
  Eval.count job fun c => { c with resumptions := c.resumptions + 1 }
  match ← Suspension.resume job apply suspension (.settled (.matched seed)) with
  | .settled (.failed _) | .recursion _ => return .settled (.matched seed)
  | attempt => return attempt

/-- Tries the alternatives of a choice in order. -/
def tryChoice (job : Job) (apply : Applier) (setting : Setting) : List Expr → Tried → Eval Attempt
  | [], tried => return tried.exhausted (setting.rest job.input) setting.location
  | alternative :: others, tried => do
    match ← apply alternative setting with
    | .settled (.matched tree) =>
      match tried.recursion with
      | some (some suspension) => plantSeed job apply suspension tree
      | _ => return .settled (.matched tree)
    | .settled (.failed failure) =>
      Eval.emit job (.backtrack failure.stop setting.location)
      Eval.count job fun c => { c with backtracks := c.backtracks + 1 }
      tryChoice job apply setting others (tried.failed failure)
    | .recursion suspension => tryChoice job apply setting others { tried with recursion := some suspension }
    | attempt => return attempt

end Packrat

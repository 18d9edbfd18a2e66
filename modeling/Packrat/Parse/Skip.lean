/-
Skipping between tokens. Where a part of a sequence or repetition fails, the skipper in effect is
tried once; if it takes input, the part is tried again after it.
-/
import Packrat.Parse.Session

namespace Packrat

/-- Where a skipper stopped; nothing if it took nothing. -/
def Attempt.skipStop? : Attempt → Option Location
  | .settled (.matched tree) => some tree.extent.stop
  | .settled (.omitted span) => some span.stop
  | _ => none

/-- The state after skipping up to a location, if that takes any input. -/
def Accumulator.skip? (input : List Char) (acc : Accumulator) (stop : Location) : Option Accumulator :=
  if stop ≤ acc.cursor.location then none else some (acc.skip input stop)

/-- Tries the skipper in effect at the cursor: the state after what it took, or nothing if it took
no input. -/
def skipBetween (job : Job) (apply : Applier) (setting : Setting) (acc : Accumulator) :
    Eval (Except GrammarError (Option Accumulator)) :=
  match job.skipper? setting.skipping with
  | none => return .ok none
  | some skipper => do
    match ← apply skipper (setting.moved acc.cursor) with
    | .broken error => return .error error
    | attempt => return .ok (attempt.skipStop?.bind (acc.skip? job.input))

end Packrat

/-
Sequences and merges, including suspension and growth under left recursion.

A sequence whose first part is the rule being entered at the same place cannot get anywhere by
trying it. It suspends itself instead. When an enclosing choice has found another alternative, the
sequence continues with that result as its first part, and once complete it keeps trying its other
parts on the input that follows, pairing each new result with what it has so far. So `a := a b | b`
reads `b b b` as `[[b, b], b]`.
-/
import Packrat.Parse.Remembering
import Packrat.Parse.Skip

namespace Packrat

namespace Run

/-- A run that starts in a setting with the first `done` parts done. -/
def new (parts : List Expr) (flatten : Bool) (setting : Setting) (done : Nat) : Run where
  parts
  flatten
  setting
  collected := .new setting.position
  done
  silence := none
  growing := false
  needsSeed := false

/-- Where the current part is tried. -/
def here (run : Run) : Setting := run.setting.moved run.collected.cursor

/-- Collects a result; a flattening run takes the items of a list instead of the list. -/
def collect (input : List Char) (run : Run) (tree : Tree) : Accumulator :=
  match run.flatten, tree with
  | true, .list place items =>
    (items.foldl (Accumulator.add input) run.collected).pass input place.extent.stop
  | _, tree => run.collected.add input tree

/-- Goes on to the next part. -/
def next (run : Run) (collected : Accumulator) (silence : Option Silence) : Run :=
  { run with collected, done := run.done + 1, silence }

/-- Deals with what came of the current part: gives the run that goes on from there, or what comes
of the whole sequence. After a failure the part is tried again behind skipped input. -/
def absorb (job : Job) (apply : Applier) (run : Run) : Attempt → Eval (Except Attempt Run)
  | .settled (.matched tree) => return .ok (run.next (run.collect job.input tree) none)
  | .settled (.omitted span) => return .ok (run.next (run.collected.pass job.input span.stop) none)
  | .settled (.silent why) => return .ok (run.next run.collected (some why))
  | .settled (.failed failure) => do
    match ← skipBetween job apply run.setting run.collected with
    | .ok (some collected) => return .ok { run with collected }
    | .ok none => return .error (.settled (.failed failure))
    | .error error => return .error (.broken error)
  | .recursion (some suspension) => return .error (.recursion (some (suspension ++ [.sequence run])))
  | .recursion none => return .error (.recursion none)
  | .broken error => return .error (.broken error)

/-- Sets the run aside until its first part has a result. -/
def suspend (run : Run) : Attempt :=
  .recursion (some [.sequence { run with growing := true, needsSeed := true }])

/-- Tries parts until all are done or one decides what comes of the sequence. Every round finishes a
part or moves the cursor, which bounds their number by `fuel`. Only results that claim ever further
places can use it up; such a run fails as if no nesting were allowed. -/
def drive (job : Job) (apply : Applier) : (fuel : Nat) → Run → Eval (Except Attempt Run)
  | 0, run => return .error (.failure (.tooDeep 0) run.here.location)
  | fuel + 1, run =>
    match run.parts[run.done]? with
    | none => return .ok run
    | some part => do
      if run.done = 0 ∧ (← get).reenters part run.here.location then
        Eval.reportReentry job (part.reference?.getD "") run.here.location
        return .error run.suspend
      else
        match ← run.absorb job apply (← apply part run.here) with
        | .ok run => drive job apply fuel run
        | .error attempt => return .error attempt

/-- How many rounds a run may take. -/
def fuel (job : Job) (run : Run) : Nat :=
  run.parts.length + job.remaining run.collected.cursor + job.slack + 1

/-- What comes of a complete run. A run without results whose last part was silent is silent too. -/
def conclude (job : Job) (run : Run) : Verdict :=
  let tree := run.collected.tree job.input
  match run.silence with
  | some why => if tree.isNil then .silent why else .matched tree
  | none => .matched tree

/-- Tries all parts but the first, from a position on. -/
def tail (job : Job) (apply : Applier) (run : Run) (cursor : Position) : Eval Attempt := do
  let further := Run.new run.parts run.flatten (run.setting.moved cursor) 1
  match ← further.drive job apply (further.fuel job) with
  | .ok further => return .settled (further.conclude job)
  | .error attempt => return attempt

/-- Pairs what a run has so far with the results of trying its other parts again, as long as they
match and get further into the input. -/
def extend (job : Job) (apply : Applier) (run : Run) : (fuel : Nat) → Position → Tree → Eval Attempt
  | 0, _, tree => return .settled (.matched tree)
  | fuel + 1, cursor, tree => do
    if job.input.length ≤ cursor.offset then return .settled (.matched tree)
    match ← run.tail job apply cursor with
    | .settled (.matched more) =>
      if more.extent.stop ≤ cursor.location then return .settled (.matched tree)
      let cursor := cursor.moveTo job.input more.extent.stop
      let span := Span.ofPositions job.input run.collected.start cursor
      Eval.count job fun c => { c with growths := c.growths + 1 }
      Eval.note (.grown cursor.location)
      run.extend job apply fuel cursor (.list (.own span) [tree, more])
    | .broken error => return .broken error
    | _ => return .settled (.matched tree)

/-- Ends a complete run. -/
def complete (job : Job) (apply : Applier) (run : Run) : Eval Attempt :=
  if run.growing then
    let cursor := run.collected.cursor
    run.extend job apply (job.remaining cursor) cursor (run.collected.tree job.input)
  else return .settled (run.conclude job)

/-- Carries a run to its end. -/
def finish (job : Job) (apply : Applier) (run : Run) : Eval Attempt := do
  match ← run.drive job apply (run.fuel job) with
  | .ok run => run.complete job apply
  | .error attempt => return attempt

/-- What a run that waits for a seed takes for its first part: the seed as the rule around the run
would give it. -/
def seeded (job : Job) (run : Run) : Attempt → Attempt
  | .settled (.matched seed) =>
    match run.setting.rule with
    | some rule =>
      match job.grammar.produce rule seed with
      | .ok seed => .settled (.matched seed)
      | .error error => .broken error
    | none => .settled (.matched seed)
  | attempt => attempt

/-- Continues a suspended run with what came of its current part. -/
def resume (job : Job) (apply : Applier) (run : Run) (attempt : Attempt) : Eval Attempt := do
  let attempt := if run.needsSeed then run.seeded job attempt else attempt
  match ← ({ run with needsSeed := false } : Run).absorb job apply attempt with
  | .ok run => run.finish job apply
  | .error attempt => return attempt

end Run

/-- Tries a sequence or a merge. -/
def trySequence (job : Job) (apply : Applier) (parts : List Expr) (flatten : Bool) (setting : Setting) :
    Eval Attempt :=
  (Run.new parts flatten setting 0).finish job apply

end Packrat

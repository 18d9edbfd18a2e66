/-
Repetition within bounds. Each round must get further into the input than the one before, and a
round that fails is tried again behind skipped input.
-/
import Packrat.Parse.Skip

namespace Packrat

/-- The rounds of a repetition so far. -/
structure Rounds where
  collected : Accumulator
  /-- How many rounds matched; rounds that left their input out count too. -/
  matched : Nat

namespace Rounds

/-- One more round matched. -/
def next (rounds : Rounds) (collected : Accumulator) : Rounds := ⟨collected, rounds.matched + 1⟩

/-- Whether the bounds allow another round. -/
def mayGoOn (rounds : Rounds) (bounds : Bounds) : Bool := bounds.max.all (rounds.matched < ·)

/-- Tries rounds until one does not match, does not get further or decides what comes of the
repetition. Every other round moves the cursor, which bounds their number by `fuel`. -/
def drive (job : Job) (apply : Applier) (body : Expr) (bounds : Bounds) (setting : Setting) :
    (fuel : Nat) → Rounds → Eval (Except Attempt Rounds)
  | 0, rounds => return .ok rounds
  | fuel + 1, rounds => do
    if !rounds.mayGoOn bounds then return .ok rounds
    let cursor := rounds.collected.cursor
    match ← apply body (setting.moved cursor) with
    | .settled (.matched tree) =>
      let further := rounds.next (rounds.collected.add job.input tree)
      if tree.extent.stop ≤ cursor.location then return .ok further
      drive job apply body bounds setting fuel further
    | .settled (.omitted span) =>
      if span.stop ≤ cursor.location then return .ok rounds
      drive job apply body bounds setting fuel (rounds.next (rounds.collected.pass job.input span.stop))
    | .settled (.silent .tookNothing) => return .ok rounds
    | .settled (.silent why) => return .error (.settled (.silent why))
    | .settled (.failed _) =>
      match ← skipBetween job apply setting rounds.collected with
      | .ok (some collected) => drive job apply body bounds setting fuel { rounds with collected }
      | .ok none => return .ok rounds
      | .error error => return .error (.broken error)
    | .recursion _ => return .error (.recursion none)
    | .broken error => return .error (.broken error)

/-- What comes of a repetition. Without any match and without need for one, it is the fallback, put
where the repetition began, or silent; if all rounds left their input out, so does the repetition. -/
def conclude (job : Job) (bounds : Bounds) (fallback : Option Tree) (location : Location)
    (rounds : Rounds) : Verdict :=
  if rounds.matched = 0 ∧ bounds.min = 0 then
    match fallback with
    | some tree => .matched (tree.movedTo (.empty location))
    | none => .silent .tookNothing
  else if rounds.matched < bounds.min then
    let cursor := rounds.collected.cursor
    .failed ⟨.tooFew bounds.min rounds.matched (cursor.rest job.input), cursor.location⟩
  else if rounds.collected.results.isEmpty then .omitted (rounds.collected.span job.input)
  else .matched (rounds.collected.tree job.input)

end Rounds

/-- Tries a repetition. -/
def tryRepetition (job : Job) (apply : Applier) (body : Expr) (bounds : Bounds)
    (fallback : Option Tree) (setting : Setting) : Eval Attempt := do
  let fuel := job.remaining setting.position + job.slack + 1
  match ← Rounds.drive job apply body bounds setting fuel ⟨.new setting.position, 0⟩ with
  | .ok rounds => return .settled (rounds.conclude job bounds fallback setting.location)
  | .error attempt => return attempt

end Packrat

/-
Contracts: what is promised of the verdicts of a parse, and what goes with the promise for sequences
and repetitions under way. Whether a parse keeps to a contract is a matter of laws about single
steps: what a leaf finds is fine, a part that did fine takes a sequence from one good state to the
next, and a sequence that is complete in a good state did fine. Suspended work has a type of its own:
it is a chain in which each piece waits for the verdict on one expression at one place and comes to
the verdict on another.
-/
import Packrat.Parse.Answer
import Packrat.Proofs.Memory.Keeping
import Packrat.Proofs.Parse.Collecting
import Packrat.Proofs.Recursion.Escape

namespace Packrat

/-! ## Promises -/

/-- What is promised of the verdicts of a parse. -/
structure Contract (job : Job) where
  /-- Where expressions are tried. -/
  At : Position → Prop
  /-- Where failures stop. -/
  Ends : Location → Prop
  /-- What a verdict on an expression that was tried at a position is like. -/
  Fine : Expr → Position → Verdict → Prop
  /-- What a sequence or merge under way is like, of whose parts so many were not its to try. -/
  Going : Nat → Run → Prop
  /-- What a sequence that was set aside is like when it has grown up to a position. -/
  Grown : Run → Position → Tree → Prop
  /-- What the rounds of a repetition that began at a position are like. -/
  Turning : Expr → Bounds → Position → Rounds → Prop

/-- The sequence or merge that a run is of. -/
def Run.expr (run : Run) : Expr := if run.flatten then .merge run.parts else .sequence run.parts

@[simp] theorem Run.chain?_expr (run : Run) : run.expr.chain? = some run.parts := by
  unfold expr
  split <;> rfl

theorem Run.Continues.expr {run further : Run} (h : run.Continues further) : further.expr = run.expr := by
  rw [Run.expr, h.parts, h.flatten]
  rfl

namespace Contract

variable {job : Job} (C : Contract job)

/-- A skipper that is tried at a position takes input up to a location. -/
def Skips (mode : SkipMode) (p : Position) (stop : Location) : Prop :=
  ∃ skipper v, job.skipper? mode = some skipper ∧ C.Fine skipper p v ∧
    (Attempt.settled v).skipStop? = some stop ∧ p.location < stop

/-! ## Laws -/

/-- The laws for all expressions but sequences, merges and repetitions. -/
structure Plain : Prop where
  ends {p : Position} : C.At p → C.Ends p.location
  failed {e : Expr} {p : Position} {f : Failure} : C.Fine e p (.failed f) ↔ C.Ends f.stop
  /-- Fallbacks apart, it does not matter which of two expressions that count as the same was tried. -/
  same {e e' : Expr} {p : Position} {v : Verdict} : job.grammar.Has e → job.grammar.Has e' → e.same e' = true →
    C.Fine e' p v → C.Fine e p v
  moved {e : Expr} {p q : Position} {v : Verdict} : C.At p → C.At q → p.location = q.location →
    C.Fine e p v → C.Fine e q v
  literal {text : List Char} {p : Position} : job.grammar.Has (.literal text) → C.At p →
    C.Fine (.literal text) p (literalVerdict text (p.rest job.input) p.location)
  pattern {pattern : Pattern} {p : Position} : job.grammar.Has (.pattern pattern) → C.At p →
    C.Fine (.pattern pattern) p (patternVerdict job.grammar.engine pattern (p.rest job.input) p.location)
  external {key : Nat} {p : Position} : job.grammar.Has (.external key) → C.At p →
    C.Fine (.external key) p (externalVerdict (job.externals key) (p.rest job.input) p.location)
  /-- A rule wraps what its body matched. -/
  wrapped {name : String} {body : Expr} {p : Position} {t t' : Tree} : job.grammar.rule? name = some body →
    C.Fine body p (.matched t) → job.grammar.produce name t = .ok t' → C.Fine (.rule name) p (.matched t')
  /-- Other verdicts on its body are verdicts on the rule. -/
  passed {name : String} {body : Expr} {p : Position} {v : Verdict} : job.grammar.rule? name = some body →
    (∀ t, v ≠ .matched t) → C.Fine body p v → C.Fine (.rule name) p v
  chosen {e : Expr} {alternatives : List Expr} {p : Position} {v : Verdict} :
    job.grammar.Has (.choice alternatives) → e ∈ alternatives → C.Fine e p v → C.Fine (.choice alternatives) p v
  ahead {body : Expr} {p : Position} : job.grammar.Has (.ahead body) → C.Fine (.ahead body) p (.silent .ahead)
  notAhead {body : Expr} {p : Position} : job.grammar.Has (.notAhead body) →
    C.Fine (.notAhead body) p (.silent .notAhead)
  omission {body : Expr} {setting : Setting} {v w : Verdict} : job.grammar.Has (.omission body) → C.At setting.position →
    C.Fine body setting.position v → omissionAttempt job setting (.settled v) = .settled w →
    C.Fine (.omission body) setting.position w

/-- The laws for sequences and merges. -/
structure Chains : Prop where
  new {parts : List Expr} {flatten : Bool} {setting : Setting} : C.At setting.position →
    C.Going 0 (.new parts flatten setting 0)
  cursor {first : Nat} {run : Run} : C.Going first run → C.At run.collected.cursor
  matched {first : Nat} {run : Run} {part : Expr} {t : Tree} : job.grammar.Has run.expr →
    run.parts[run.done]? = some part → C.Going first run → C.Fine part run.collected.cursor (.matched t) →
    C.Going first (run.next (run.collect job.input t) none)
  omitted {first : Nat} {run : Run} {part : Expr} {span : Span} : job.grammar.Has run.expr →
    run.parts[run.done]? = some part → C.Going first run → C.Fine part run.collected.cursor (.omitted span) →
    C.Going first (run.next (run.collected.pass job.input span.stop) none)
  silent {first : Nat} {run : Run} {part : Expr} {why : Silence} : job.grammar.Has run.expr →
    run.parts[run.done]? = some part → (run.growing = true → 0 < run.done) → C.Going first run → C.Fine part run.collected.cursor (.silent why) →
    C.Going first (run.next run.collected (some why))
  skipped {first : Nat} {run : Run} {stop : Location} : C.Going first run →
    C.Skips run.setting.skipping run.collected.cursor stop →
    C.Going first { run with collected := run.collected.skip job.input stop }
  concluded {run : Run} : job.grammar.Has run.expr → run.parts[run.done]? = none → C.Going 0 run →
    C.Fine run.expr run.setting.position (run.conclude job)
  /-- A sequence that is set aside stays as it is until there is a seed. -/
  aside {run : Run} {growing needsSeed : Bool} : run.done = 0 → C.Going 0 run →
    C.Going 0 { run with growing, needsSeed }
  /-- A seed found by a later alternative of a choice does for the first part of a sequence that an
  alternative before it has set aside. -/
  planted {alternatives before later : List Expr} {e e' : Expr} {m : Mark} {p o : Position} {r : String}
    {t t' : Tree} : job.grammar.Has (.choice alternatives) → alternatives = before ++ e :: later → e' ∈ later →
    Escapes job.grammar m e p.location (some o.location) → C.At p → C.At o → C.Fine e' p (.matched t) →
    (t' = t ∨ ∃ name, job.grammar.produce name t = .ok t') → C.Fine (.rule r) o (.matched t')
  /-- A sequence that was set aside and is complete begins to grow. -/
  complete {run : Run} : job.grammar.Has run.expr → run.parts[run.done]? = none → run.growing = true → 0 < run.done →
    C.Going 0 run → C.Grown run run.collected.cursor (run.collected.tree job.input)
  /-- It grows by its other parts. -/
  tail {run : Run} {cursor : Position} {t : Tree} : C.Grown run cursor t →
    C.Going 1 (.new run.parts run.flatten (run.setting.moved cursor) 1)
  grow {run further : Run} {cursor : Position} {t more : Tree} : job.grammar.Has run.expr → C.Grown run cursor t →
    (Run.new run.parts run.flatten (run.setting.moved cursor) 1).Continues further → C.Going 1 further →
    further.parts[further.done]? = none → further.conclude job = .matched more → cursor.location < more.extent.stop →
    C.Grown run (cursor.moveTo job.input more.extent.stop) (.list (.own (.ofPositions job.input run.collected.start
      (cursor.moveTo job.input more.extent.stop))) [t, more])
  grown {run : Run} {cursor : Position} {t : Tree} : job.grammar.Has run.expr → C.Grown run cursor t →
    C.Fine run.expr run.setting.position (.matched t)

/-- The laws for repetitions. -/
structure Turns : Prop where
  new {body : Expr} {bounds : Bounds} {p : Position} : C.At p → C.Turning body bounds p ⟨.new p, 0⟩
  cursor {body : Expr} {bounds : Bounds} {p : Position} {rounds : Rounds} : C.Turning body bounds p rounds →
    C.At rounds.collected.cursor
  matched {body : Expr} {bounds : Bounds} {p : Position} {rounds : Rounds} {t : Tree} : C.Turning body bounds p rounds →
    rounds.mayGoOn bounds = true → C.Fine body rounds.collected.cursor (.matched t) →
    C.Turning body bounds p (rounds.next (rounds.collected.add job.input t))
  omitted {body : Expr} {bounds : Bounds} {p : Position} {rounds : Rounds} {span : Span} :
    C.Turning body bounds p rounds → rounds.mayGoOn bounds = true →
    C.Fine body rounds.collected.cursor (.omitted span) →
    C.Turning body bounds p (rounds.next (rounds.collected.pass job.input span.stop))
  skipped {body : Expr} {bounds : Bounds} {p : Position} {rounds : Rounds} {mode : SkipMode} {stop : Location} :
    C.Turning body bounds p rounds → C.Skips mode rounds.collected.cursor stop →
    C.Turning body bounds p { rounds with collected := rounds.collected.skip job.input stop }
  /-- What looks ahead in a round decides for the repetition. -/
  signalled {body : Expr} {bounds : Bounds} {fallback : Option Tree} {p : Position} {rounds : Rounds} {why : Silence} :
    job.grammar.Has (.repetition body bounds fallback) → C.Turning body bounds p rounds →
    rounds.mayGoOn bounds = true → why ≠ .tookNothing → C.Fine body rounds.collected.cursor (.silent why) →
    C.Fine (.repetition body bounds fallback) p (.silent why)
  concluded {body : Expr} {bounds : Bounds} {fallback : Option Tree} {p : Position} {rounds : Rounds} :
    job.grammar.Has (.repetition body bounds fallback) → C.At p → C.Turning body bounds p rounds →
    C.Fine (.repetition body bounds fallback) p (rounds.conclude job bounds fallback p.location)

/-- All laws hold, so a parse keeps to the contract. -/
structure Lawful : Prop where
  plain : C.Plain
  chains : C.Chains
  turns : C.Turns

/-! ## Work under way -/

/-- A run that goes on from `origin` in a good state. -/
structure On (first : Nat) (origin run : Run) : Prop where
  has : job.grammar.Has run.expr
  sits : C.At run.setting.position
  mode : job.grammar.Mode run.setting.skipping
  continues : origin.Continues run
  forward : run.setting.location ≤ run.collected.cursor.location
  /-- Only what is skipped takes the cursor away from where the first part is first tried. -/
  still : run.done = 0 → run.collected.cursor.location ≠ run.setting.location → job.grammar.Skipping
  seeded : run.growing = true → 0 < run.done
  ready : run.needsSeed = false
  going : C.Going first run

/-- Some work, given the verdict on an expression at a position, comes to the verdict on another
expression, which was tried there or before. -/
inductive Feeds : Expr → Position → List Waiting → Expr → Position → Prop
  | done {e : Expr} {p : Position} : Feeds e p [] e p
  | sequence {run : Run} {part e : Expr} {p : Position} {works : List Waiting} : C.On 0 run run →
    run.parts[run.done]? = some part → Feeds run.expr run.setting.position works e p →
    Feeds part run.collected.cursor (.sequence run :: works) e p
  | memory {q : Question} {e e' : Expr} {p p' : Position} {works : List Waiting} : q.expr = e →
    q.location = p.location → Feeds e p works e' p' → Feeds e p (.memory q :: works) e' p'
  | wrapping {name : String} {body e : Expr} {p p' : Position} {works : List Waiting} :
    job.grammar.Has (.rule name) → job.grammar.rule? name = some body → Feeds (.rule name) p works e p' →
    Feeds body p (.wrapping name :: works) e p'
  | choice {alternatives : List Expr} {e e' : Expr} {p p' : Position} {works : List Waiting} :
    job.grammar.Has (.choice alternatives) → e ∈ alternatives → Feeds (.choice alternatives) p works e' p' →
    Feeds e p works e' p'

/-- Suspended work that comes to the verdict on an expression: a sequence that was set aside at a
position waits for a seed, and other work waits for the sequence. -/
inductive Awaits : Suspension → Expr → Position → Position → Prop
  | intro {run : Run} {r : String} {works : List Waiting} {e : Expr} {p : Position} : C.On 0 run run →
    run.parts[run.done]? = some (.rule r) → run.done = 0 → C.Feeds run.expr run.setting.position works e p →
    Awaits (.sequence { run with growing := true, needsSeed := true } :: works) e p run.collected.cursor

/-- What may come of an expression: verdicts are fine, and recursion signals are as `R` says. -/
def Comes (R : Option Suspension → Prop) (e : Expr) (p : Position) : Attempt → Prop
  | .settled v => C.Fine e p v
  | .recursion suspension => R suspension
  | .broken _ => True

/-- What a recursion signal of an expression is like that is tried under a mark. -/
def Signal (m : Mark) (e : Expr) (p : Position) : Option Suspension → Prop
  | none => Escapes job.grammar m e p.location none
  | some suspension => ∃ o, C.Awaits suspension e p o ∧ Escapes job.grammar m e p.location (some o.location)

end Contract

end Packrat

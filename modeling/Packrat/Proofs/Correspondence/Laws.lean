/-
Two parses that correspond to each other: places, results, expressions and ways of skipping of the one
with those of the other. A correspondence extends to all that is under way in a parse, from verdicts to
suspended work and to what is remembered. It holds between two jobs if every single thing that a parse
does with corresponding things gives corresponding things again.
-/
import Mathlib.Data.List.Forall2
import Packrat.Parse.Answer
import Packrat.Proofs.Session.Logic

namespace Packrat

/-- Both went well, or both went wrong, with related outcomes. -/
inductive ExceptRel {ε ε' α α' : Type} (S : ε → ε' → Prop) (R : α → α' → Prop) : Except ε α → Except ε' α' → Prop
  | ok {a : α} {a' : α'} : R a a' → ExceptRel S R (.ok a) (.ok a')
  | error {e : ε} {e' : ε'} : S e e' → ExceptRel S R (.error e) (.error e')

/-- What corresponds to what in two parses. -/
structure Correspondence where
  location : Location → Location → Prop
  position : Position → Position → Prop
  tree : Tree → Tree → Prop
  expr : Expr → Expr → Prop
  skipping : SkipMode → SkipMode → Prop

namespace Correspondence

variable (K : Correspondence)

/-! ## Expressions -/

/-- Wherever they are put, the fallbacks correspond. -/
def Fallbacks (t t' : Tree) : Prop :=
  ∀ l l', K.location l l' → K.tree (t.movedTo (.empty l)) (t'.movedTo (.empty l'))

/-- Expressions of one form, with parts that correspond. -/
inductive Exprs : Expr → Expr → Prop
  | literal (text : List Char) : Exprs (.literal text) (.literal text)
  | pattern (pattern : Pattern) : Exprs (.pattern pattern) (.pattern pattern)
  | rule (name : String) : Exprs (.rule name) (.rule name)
  | external (key : Nat) : Exprs (.external key) (.external key)
  | sequence {parts parts' : List Expr} : List.Forall₂ K.expr parts parts' → Exprs (.sequence parts) (.sequence parts')
  | merge {parts parts' : List Expr} : List.Forall₂ K.expr parts parts' → Exprs (.merge parts) (.merge parts')
  | choice {parts parts' : List Expr} : List.Forall₂ K.expr parts parts' → Exprs (.choice parts) (.choice parts')
  | repetition {body body' : Expr} {bounds : Bounds} {fallback fallback' : Option Tree} : K.expr body body' →
    Option.Rel K.Fallbacks fallback fallback' → Exprs (.repetition body bounds fallback) (.repetition body' bounds fallback')
  | ahead {body body' : Expr} : K.expr body body' → Exprs (.ahead body) (.ahead body')
  | notAhead {body body' : Expr} : K.expr body body' → Exprs (.notAhead body) (.notAhead body')
  | omission {body body' : Expr} : K.expr body body' → Exprs (.omission body) (.omission body')

/-! ## Verdicts -/

/-- Spans with corresponding ends and the same text. -/
structure Spans (a a' : Span) : Prop where
  start : K.location a.start a'.start
  stop : K.location a.stop a'.stop
  text : a.text = a'.text

/-- Failures for the same cause at corresponding places. -/
structure Failures (f f' : Failure) : Prop where
  cause : f.cause = f'.cause
  stop : K.location f.stop f'.stop

inductive Verdicts : Verdict → Verdict → Prop
  | matched {t t' : Tree} : K.tree t t' → Verdicts (.matched t) (.matched t')
  | silent (why : Silence) : Verdicts (.silent why) (.silent why)
  | omitted {span span' : Span} : K.Spans span span' → Verdicts (.omitted span) (.omitted span')
  | failed {f f' : Failure} : K.Failures f f' → Verdicts (.failed f) (.failed f')

/-! ## Work under way -/

structure Settings (a a' : Setting) : Prop where
  position : K.position a.position a'.position
  rule : a.rule = a'.rule
  skipping : K.skipping a.skipping a'.skipping

structure Questions (q q' : Question) : Prop where
  expr : K.expr q.expr q'.expr
  location : K.location q.location q'.location
  skipping : K.skipping q.skipping q'.skipping

structure Collections (acc acc' : Accumulator) : Prop where
  start : K.position acc.start acc'.start
  stop : K.position acc.stop acc'.stop
  cursor : K.position acc.cursor acc'.cursor
  begun : acc.begun = acc'.begun
  results : List.Forall₂ K.tree acc.results.toList acc'.results.toList

structure Runs (run run' : Run) : Prop where
  parts : List.Forall₂ K.expr run.parts run'.parts
  flatten : run.flatten = run'.flatten
  setting : K.Settings run.setting run'.setting
  collected : K.Collections run.collected run'.collected
  done : run.done = run'.done
  silence : run.silence = run'.silence
  growing : run.growing = run'.growing
  needsSeed : run.needsSeed = run'.needsSeed

structure Turns (rounds rounds' : Rounds) : Prop where
  collected : K.Collections rounds.collected rounds'.collected
  matched : rounds.matched = rounds'.matched

inductive Works : Waiting → Waiting → Prop
  | sequence {run run' : Run} : K.Runs run run' → Works (.sequence run) (.sequence run')
  | memory {q q' : Question} : K.Questions q q' → Works (.memory q) (.memory q')
  | wrapping (rule : String) : Works (.wrapping rule) (.wrapping rule)

/-- Recursion signals, with corresponding suspensions if there are any. -/
abbrev Signals : Option Suspension → Option Suspension → Prop := Option.Rel (List.Forall₂ K.Works)

inductive Attempts : Attempt → Attempt → Prop
  | settled {v v' : Verdict} : K.Verdicts v v' → Attempts (.settled v) (.settled v')
  | recursion {s s' : Option Suspension} : K.Signals s s' → Attempts (.recursion s) (.recursion s')
  | broken (error : GrammarError) : Attempts (.broken error) (.broken error)

structure Tries (tried tried' : Tried) : Prop where
  furthest : Option.Rel K.Failures tried.furthest tried'.furthest
  recursion : Option.Rel K.Signals tried.recursion tried'.recursion

/-! ## Sessions -/

/-- At corresponding places, corresponding verdicts are remembered on corresponding questions. -/
def Memories (m m' : Memory) : Prop :=
  ∀ l l', K.location l l' → List.Forall₂ (fun a a' => K.Questions a.1 a'.1 ∧ K.Verdicts a.2 a'.2) (m.cell l) (m'.cell l')

/-- One rule was entered last, at corresponding places. -/
def Marks : Option (String × Location) → Option (String × Location) → Prop :=
  Option.Rel fun a a' => a.1 = a'.1 ∧ K.location a.2 a'.2

structure Sessions (s s' : Session) : Prop where
  memory : K.Memories s.memory s'.memory
  entered : K.Marks s.entered s'.entered

/-- In corresponding sessions the steps give related results, and the sessions correspond afterwards. -/
def Steps {α α' : Type} (R : α → α' → Prop) (x : Eval α) (x' : Eval α') : Prop :=
  ∀ s s', K.Sessions s s' → R (x.on s).1 (x'.on s').1 ∧ K.Sessions (x.on s).2 (x'.on s').2

/-- Corresponding expressions come to corresponding attempts, wherever they are tried. -/
def Carries (apply apply' : Applier) : Prop :=
  ∀ e e' setting setting', K.expr e e' → K.Settings setting setting' →
    K.Steps K.Attempts (apply e setting) (apply' e' setting')

/-! ## Laws -/

/-- The correspondence holds between two jobs. -/
structure Holds (job job' : Job) : Prop where
  remember : job.options.remember = job'.options.remember
  depthLimit : job.options.depthLimit = job'.options.depthLimit
  slack : job.slack = job'.slack
  le {a a' b b' : Location} : K.location a a' → K.location b b' → (a ≤ b ↔ a' ≤ b')
  place {p p' : Position} : K.position p p' → K.location p.location p'.location
  rest {p p' : Position} : K.position p p' → p.rest job.input = p'.rest job'.input
  remaining {p p' : Position} : K.position p p' → job.remaining p = job'.remaining p'
  moveTo {p p' : Position} {l l' : Location} : K.position p p' → K.location l l' →
    K.position (p.moveTo job.input l) (p'.moveTo job'.input l')
  text {p p' q q' : Position} : K.position p p' → K.position q q' → Position.text job.input p q = Position.text job'.input p' q'
  extent {t t' : Tree} : K.tree t t' → K.Spans t.extent t'.extent
  items {t t' : Tree} : K.tree t t' → Option.Rel (List.Forall₂ K.tree) t.items? t'.items?
  list {span span' : Span} {items items' : List Tree} : K.Spans span span' → List.Forall₂ K.tree items items' →
    K.tree (.list (.own span) items) (.list (.own span') items')
  inside {t t' : Tree} {span span' : Span} : K.tree t t' → K.Spans span span' → K.tree (t.inside span) (t'.inside span')
  produce {rule : String} {t t' : Tree} : K.tree t t' →
    ExceptRel Eq K.tree (job.grammar.produce rule t) (job'.grammar.produce rule t')
  shape {e e' : Expr} : K.expr e e' → K.Exprs e e'
  display {e e' : Expr} : K.expr e e' → e.display = e'.display
  same {e e' d d' : Expr} : K.expr e e' → K.expr d d' → e.same d = e'.same d'
  rule (name : String) : Option.Rel K.expr (job.grammar.rule? name) (job'.grammar.rule? name)
  literal {text rest : List Char} {l l' : Location} : K.location l l' →
    K.Verdicts (literalVerdict text rest l) (literalVerdict text rest l')
  pattern {pattern : Pattern} {rest : List Char} {l l' : Location} : K.location l l' →
    K.Verdicts (patternVerdict job.grammar.engine pattern rest l) (patternVerdict job'.grammar.engine pattern rest l')
  external {key : Nat} {rest : List Char} {l l' : Location} : K.expr (.external key) (.external key) → K.location l l' →
    K.Verdicts (externalVerdict (job.externals key) rest l) (externalVerdict (job'.externals key) rest l')
  sameSkipping {m m' n n' : SkipMode} : K.skipping m m' → K.skipping n n' → m.same n = m'.same n'
  skipper {m m' : SkipMode} : K.skipping m m' → Option.Rel K.expr (job.skipper? m) (job'.skipper? m')
  skippingIn {rule : String} {m m' : SkipMode} : K.skipping m m' →
    K.skipping (job.skippingIn rule m) (job'.skippingIn rule m')

variable {K} {job job' : Job}

/-! ## Places -/

theorem Spans.empty {l l' : Location} (h : K.location l l') : K.Spans (.empty l) (.empty l') := ⟨h, h, rfl⟩

namespace Holds

variable (hK : K.Holds job job')
include hK

theorem eq_iff {a a' b b' : Location} (ha : K.location a a') (hb : K.location b b') : a = b ↔ a' = b' := by
  constructor
  · rintro rfl
    exact Location.le_antisymm ((hK.le ha hb).1 (Location.le_refl _)) ((hK.le hb ha).1 (Location.le_refl _))
  · rintro rfl
    exact Location.le_antisymm ((hK.le ha hb).2 (Location.le_refl _)) ((hK.le hb ha).2 (Location.le_refl _))

theorem lt {a a' b b' : Location} (ha : K.location a a') (hb : K.location b b') : a < b ↔ a' < b' := by
  rw [← Location.not_le, ← Location.not_le, hK.le hb ha]

theorem length_le {p p' : Position} (h : K.position p p') : job.input.length ≤ p.offset ↔ job'.input.length ≤ p'.offset := by
  have := hK.remaining h
  unfold Job.remaining at this
  omega

theorem ofPositions {p p' q q' : Position} (hp : K.position p p') (hq : K.position q q') :
    K.Spans (.ofPositions job.input p q) (.ofPositions job'.input p' q') :=
  ⟨hK.place hp, hK.place hq, hK.text hp hq⟩

end Holds

end Correspondence

end Packrat

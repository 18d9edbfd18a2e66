/-
What trying an expression relies on. Two ways to try expressions that do the same wherever an expression is
ready to be tried are as good as one another, and it does not matter how many turns loops are allowed
beyond those that they need. So in the course of a parse expressions are tried where they are ready to be,
and nowhere else. This is shown for each kind of expression, along with what the first way yields.
-/
import Packrat.Proofs.Contract.Progress
import Packrat.Proofs.Session.Calls

namespace Packrat

open Stance

/-- The same job, but loops are allowed another number of turns at the end of the input. -/
def Job.allowing (job : Job) (slack : Nat) : Job := { job with slack }

namespace Stance.Same

variable {α β : Type} {k : Stance} {x y : Eval α} {f g : α → Eval β} {Q : α → Prop}

theorem refl : k.Same x x := fun _ _ => rfl

theorem bind (hk : ∀ c, ¬ k.alarm.rung c) (hx : k.Same x y) (hQ : k.Yields True x Q) (hf : ∀ a, Q a → k.Same (f a) (g a)) :
    k.Same (x >>= f) (y >>= g) := by
  intro s hs
  obtain ⟨hQ, hs'⟩ := ((hQ s).2 trivial hs).resolve_left (hk _)
  rw [Eval.on_bind, Eval.on_bind, hx s hs]
  exact hf _ hQ _ hs'

/-- Only the first step is another one. -/
theorem first (hx : k.Same x y) : k.Same (x >>= f) (y >>= f) := by
  intro s hs
  rw [Eval.on_bind, Eval.on_bind, hx s hs]

theorem bind_get {f g : Session → Eval α} (hf : ∀ s, k.Fits s → k.Same (f s) (g s)) : k.Same (get >>= f) (get >>= g) :=
  fun s hs => hf s hs s hs

theorem ite {c : Prop} [Decidable c] {x' y' : Eval α} (hx : c → k.Same x y) (hx' : ¬ c → k.Same x' y') :
    k.Same (if c then x else x') (if c then y else y') := by
  split
  · next h => exact hx h
  · next h => exact hx' h

end Stance.Same

/-- The second way to try expressions does the same as the first wherever an expression is ready to be
tried, and what comes of it there is in the text. -/
structure Job.Mimics (job : Job) (m : Mark) (depth : Nat) (apply apply' : Applier) : Prop where
  kept : job.presence.KeptBy m depth apply
  same : ∀ e setting, job.presence.Admits m e setting → (job.presence.stance m depth).Same (apply e setting) (apply' e setting)

namespace Job.Mimics

variable {job : Job} {slack : Nat} {m : Mark} {depth first : Nat} {apply apply' : Applier} {origin run : Run} {e part : Expr}
  {setting : Setting} {a : Attempt}

/-- One step, and one after it. -/
theorem bind {α β : Type} {x y : Eval α} {f g : α → Eval β} {Q : α → Prop} (hx : (job.presence.stance m depth).Same x y)
    (hQ : (job.presence.stance m depth).Yields True x Q) (hf : ∀ a, Q a → (job.presence.stance m depth).Same (f a) (g a)) :
    (job.presence.stance m depth).Same (x >>= f) (y >>= g) := .bind (fun _ => id) hx hQ hf

variable (h : job.Mimics m depth apply apply')
include h

/-! ## Sequences -/

theorem skipBetween {acc : Accumulator} (hmode : job.grammar.Mode setting.skipping) (hat : acc.cursor.Sits job.input)
    (hm : m.Behind acc.cursor.location) : (job.presence.stance m depth).Same (Packrat.skipBetween job apply setting acc)
      (Packrat.skipBetween (job.allowing slack) apply' setting acc) := by
  unfold Packrat.skipBetween
  rw [show (job.allowing slack).skipper? setting.skipping = job.skipper? setting.skipping from rfl]
  split
  · exact .refl
  · next skipper hs => exact .first (h.same skipper _ ⟨hmode.has hs, hat, hmode, hm⟩)

theorem absorb (hm : m.Behind run.setting.location) (hon : job.presence.On first origin run) :
    (job.presence.stance m depth).Same (run.absorb job apply a) (run.absorb (job.allowing slack) apply' a) := by
  rcases a with (t | why | span | failure) | (_ | suspension) | error
  case settled.failed => exact .first (h.skipBetween hon.mode hon.going.cursor (hm.mono hon.forward))
  all_goals exact .refl

theorem turn (hj : job.Rooted) (hm : m.Behind run.setting.location) (hon : job.presence.On first origin run) :
    (job.presence.stance m depth).Same (run.turn job apply) (run.turn (job.allowing slack) apply') := by
  have hC := Ground.presence_lawful hj.bears
  unfold Run.turn
  split
  · exact .refl
  · next part hp =>
    have hadmits := hon.admits hC hp hm
    refine .bind_get fun s _ => .ite (fun _ => .refl) fun _ => ?_
    exact bind (h.same part _ hadmits) (h.kept part _ hadmits) fun a _ => .first (h.absorb hm hon)

/-- A sequence takes the same turns, and it is allowed enough. -/
theorem drive (hj : job.Rooted) (hm : m.Behind origin.setting.location) (hon : job.presence.On first origin run) :
    (job.presence.stance m depth).Same (run.drive job apply (run.fuel job))
      (run.drive (job.allowing slack) apply' (run.fuel (job.allowing slack))) := by
  have hbehind {run : Run} (hon : job.presence.On first origin run) : m.Behind run.setting.location := by
    rw [hon.continues.setting]
    exact hm
  rw [Run.drive_eq_takeTurns, Run.drive_eq_takeTurns]
  refine takeTurns_same (fun _ hon => Run.turn_onward hj h.kept hm hon) (fun _ => id)
    (fun _ hon => h.turn hj (hbehind hon) hon) hon (.inr ⟨?_, ?_⟩)
  · unfold Run.left Run.fuel
    omega
  · show run.left job < run.parts.length + job.remaining run.collected.cursor + slack + 1
    unfold Run.left
    omega

theorem tail (hj : job.Rooted) {grown : Position × Tree} (hhas : job.grammar.Has run.expr)
    (hmode : job.grammar.Mode run.setting.skipping) (hgrown : run.GrownTo job m grown) :
    (job.presence.stance m depth).Same (run.tail job apply grown.1) (run.tail (job.allowing slack) apply' grown.1) := by
  let further := Run.new run.parts run.flatten (run.setting.moved grown.1) 1
  have hm : m.Behind further.setting.location := hgrown.1
  exact .first (h.drive hj hm (.tail (Ground.presence_lawful hj.bears) hhas hmode hgrown.2))

theorem growth (hj : job.Rooted) {grown : Position × Tree} (hhas : job.grammar.Has run.expr)
    (hmode : job.grammar.Mode run.setting.skipping) (hgrown : run.GrownTo job m grown) :
    (job.presence.stance m depth).Same (run.growth job apply grown) (run.growth (job.allowing slack) apply' grown) :=
  .ite (fun _ => .refl) fun _ => .first (h.tail hj hhas hmode hgrown)

theorem complete (hj : job.Rooted) (hm : m.Behind run.setting.location) (hon : job.presence.On 0 origin run)
    (hd : run.parts[run.done]? = none) :
    (job.presence.stance m depth).Same (run.complete job apply) (run.complete (job.allowing slack) apply') := by
  unfold Run.complete
  refine .ite (fun hg => ?_) fun _ => .refl
  have hgrown := Run.grownTo_of_complete hm hon hd hg
  rw [Run.extend_eq_takeTurns, Run.extend_eq_takeTurns]
  exact takeTurns_same (fun _ hgrown => Run.growth_onward hj h.kept hon.has hon.mode hgrown) (fun _ => id)
    (fun _ hgrown => h.growth hj hon.has hon.mode hgrown) hgrown (.inl rfl)

theorem finish (hj : job.Rooted) (hm : m.Behind origin.setting.location) (hon : job.presence.On 0 origin run) :
    (job.presence.stance m depth).Same (run.finish job apply) (run.finish (job.allowing slack) apply') := by
  refine bind (h.drive hj hm hon) (Contract.drive_kept (R := fun _ => True) (Ground.presence_lawful hj.bears) h.kept hm
    (fun _ _ _ _ _ _ => trivial) (fun _ _ _ _ _ _ => trivial) _ hon) fun r hr => ?_
  cases r with
  | ok last =>
    refine h.complete hj ?_ hr.1 hr.2
    rw [hr.1.continues.setting]
    exact hm
  | error attempt => exact .refl

/-! ## Suspended work -/

theorem goOn (hj : job.Rooted) (hm : m.Behind run.setting.location) (hon : job.presence.On 0 run run)
    (hp : run.parts[run.done]? = some part) (ha : job.presence.Comes (fun _ => True) part run.collected.cursor a) :
    (job.presence.stance m depth).Same (run.goOn job apply a) (run.goOn (job.allowing slack) apply' a) := by
  refine bind (h.absorb hm hon) (Contract.absorb_kept (Ground.presence_lawful hj.bears) h.kept hm hon hp ha) fun r hr => ?_
  cases r with
  | ok further => exact h.finish hj hm hr
  | error attempt => exact .refl

theorem resume (hj : job.Rooted) {e' : Expr} {p p' : Position} (hm : m.Behind p'.location) {works : List Waiting}
    (hf : job.presence.Feeds e p works e' p') (hhas : job.grammar.Has e) (hat : p.Sits job.input)
    (ha : job.presence.Comes (fun _ => True) e p a) : (job.presence.stance m depth).Same (Suspension.resume job apply works a)
      (Suspension.resume (job.allowing slack) apply' works a) := by
  have hC := Ground.presence_lawful hj.bears
  induction hf generalizing a with
  | done => exact .refl
  | @sequence run part e p works hon hp hworks ih =>
    have hm' : m.Behind run.setting.location := hm.mono hworks.le
    unfold Suspension.resume Waiting.resume
    simp only
    rw [Run.resume_of_ready hon.ready, Run.resume_of_ready hon.ready]
    refine bind (h.goOn hj hm' hon hp ha) (Contract.goOn_kept hC h.kept hm' hon hp ha) fun b hb => ?_
    split
    · exact .refl
    · exact ih hm hon.has hon.sits hb
  | @memory q e e' p p' works he hl _ ih =>
    unfold Suspension.resume Waiting.resume
    refine bind .refl (Contract.remember_kept hC hhas he hl hat ha) fun b hb => ?_
    split
    · exact .refl
    · exact ih hm hhas hat hb
  | @wrapping name body e p p' works hr hb _ ih =>
    have hw := (Contract.wrapAttempt_comes hC hb ha).weaken
    unfold Suspension.resume Waiting.resume
    simp only [pure_bind]
    rw [show wrapAttempt (job.allowing slack) name a = wrapAttempt job name a from rfl]
    split
    · exact .refl
    · exact ih hm hr hat hw
  | choice hc hmem _ ih =>
    refine ih hm hc hat ?_
    cases a with
    | settled v => exact hC.plain.chosen hc hmem ha
    | recursion | broken => trivial

theorem resumeAside (hj : job.Rooted) {r : String} {seed : Tree} (hm : m.Behind run.setting.location)
    (hon : job.presence.On 0 run run) (hp : run.parts[run.done]? = some (.rule r)) (hd : run.done = 0)
    (hseed : seed.Lies (Position.Place job.input)) :
    let aside : Run := { run with growing := true, needsSeed := true }
    (job.presence.stance m depth).Same (aside.resume job apply (.settled (.matched seed)))
      (aside.resume (job.allowing slack) apply' (.settled (.matched seed))) := by
  have hC := Ground.presence_lawful hj.bears
  let aside : Run := { run with growing := true, needsSeed := false }
  have planted (t : Tree) (ht : t.Lies (Position.Place job.input)) : (job.presence.stance m depth).Same
      ((aside.next (aside.collect job.input t) none).finish job apply)
      ((aside.next (aside.collect job.input t) none).finish (job.allowing slack) apply') := by
    have hm' : m.Behind aside.setting.location := hm
    have hfine : job.presence.Fine (.rule r) run.collected.cursor (.matched t) := ht
    exact h.finish hj hm' (hon.planted hC hp hd hfine)
  unfold Run.resume
  simp only [if_true]
  unfold Run.seeded
  simp only
  rw [show (job.allowing slack).grammar = job.grammar from rfl]
  split
  · next name _ =>
    cases ht : job.grammar.produce name seed with
    | ok t => exact planted t (Grammar.lies_produce ht hseed)
    | error error =>
      -- nothing is taken then, and nothing tried
      show (job.presence.stance m depth).Same (Pure.pure (Attempt.broken error)) (Pure.pure (Attempt.broken error))
      exact .refl
  · exact planted seed hseed

theorem plantSeed (hj : job.Rooted) {p : Position} (hm : m.Behind p.location) {suspension : Suspension} {seed : Tree}
    (hs : job.presence.Signal m e p (some suspension)) (hseed : seed.Lies (Position.Place job.input)) :
    (job.presence.stance m depth).Same (Packrat.plantSeed job apply suspension seed)
      (Packrat.plantSeed (job.allowing slack) apply' suspension seed) := by
  have hC := Ground.presence_lawful hj.bears
  obtain ⟨o, hawaits, -⟩ := hs
  refine bind (Q := fun _ => True) .refl .note fun _ _ => bind (Q := fun _ => True) .refl .emit fun _ _ => ?_
  refine bind (Q := fun _ => True) .refl (.count (fun _ => Nat.le_refl _) fun _ => Nat.le_refl _) fun _ _ => .first ?_
  cases hawaits with
  | @intro run r works _ _ hon hp hd hworks =>
    have hm' : m.Behind run.setting.location := hm.mono hworks.le
    unfold Suspension.resume Waiting.resume
    refine bind (h.resumeAside hj hm' hon hp hd hseed) (Contract.resumeAside_kept hC h.kept hm' hon hp hd fun t ht => ?_)
      fun b hb => ?_
    · rcases ht with rfl | ⟨name, ht⟩
      · exact hseed
      · exact Grammar.lies_produce ht hseed
    · split
      · exact .refl
      · exact h.resume hj hm hworks hon.has hon.sits hb

/-! ## Expressions -/

theorem tryChoice (hj : job.Rooted) (hmode : job.grammar.Mode setting.skipping) (hat : setting.position.Sits job.input)
    (hm : m.Behind setting.location) : ∀ {before others : List Expr} {tried : Tried}, (∀ e ∈ others, job.grammar.Has e) →
      job.presence.Minds m setting.position before tried →
      (job.presence.stance m depth).Same (Packrat.tryChoice job apply setting others tried)
        (Packrat.tryChoice (job.allowing slack) apply' setting others tried)
  | _, [], _, _, _ => .refl
  | before, e :: others, tried, hhas, hmind => by
    have hadmits : job.presence.Admits m e setting := ⟨hhas e List.mem_cons_self, hat, hmode, hm⟩
    have hhas' : ∀ e ∈ others, job.grammar.Has e := fun e he => hhas e (List.mem_cons_of_mem _ he)
    unfold Packrat.tryChoice
    refine bind (h.same e setting hadmits) (h.kept e setting hadmits) fun a hcame => ?_
    rcases a with (t | why | span | failure) | suspension | error
    · simp only
      split
      · next suspension hs =>
        obtain ⟨e', -, hsignal⟩ := hmind.recursion _ hs
        exact h.plantSeed hj hm hsignal hcame
      · exact .refl
    · exact .refl
    · exact .refl
    · refine bind (Q := fun _ => True) .refl .emit fun _ _ => ?_
      refine bind (Q := fun _ => True) .refl (.count (fun _ => Nat.le_refl _) fun _ => Nat.le_refl _) fun _ _ => ?_
      exact tryChoice hj hmode hat hm hhas' (hmind.failed (e := e) trivial)
    · exact tryChoice hj hmode hat hm hhas' (hmind.signalled hcame)
    · exact .refl

theorem round {body : Expr} {bounds : Bounds} {fallback : Option Tree}
    (ha : job.presence.Admits m (.repetition body bounds fallback) setting)
    {rounds : Rounds} (hrounds : rounds.RunTo job body bounds setting) :
    (job.presence.stance m depth).Same (rounds.turn job apply body bounds setting)
      (rounds.turn (job.allowing slack) apply' body bounds setting) := by
  have hat : rounds.collected.cursor.Sits job.input := hrounds.1.cursor
  have hm : m.Behind rounds.collected.cursor.location := ha.behind.mono hrounds.2
  have hadmits : job.presence.Admits m body (setting.moved rounds.collected.cursor) :=
    ⟨ha.has.part List.mem_cons_self, hat, ha.mode, hm⟩
  unfold Rounds.turn
  refine .ite (fun _ => .refl) fun _ => bind (h.same body _ hadmits) (h.kept body _ hadmits) fun a _ => ?_
  rcases a with (t | (_ | _ | _) | span | failure) | suspension | error
  case settled.failed => exact .first (h.skipBetween ha.mode hat hm)
  all_goals exact .refl

/-- A repetition takes the same turns, and it is allowed enough. -/
theorem tryRepetition (hj : job.Rooted) {body : Expr} {bounds : Bounds} {fallback : Option Tree}
    (ha : job.presence.Admits m (.repetition body bounds fallback) setting) : (job.presence.stance m depth).Same
      (Packrat.tryRepetition job apply body bounds fallback setting)
      (Packrat.tryRepetition (job.allowing slack) apply' body bounds fallback setting) := by
  have hrounds : Rounds.RunTo job body bounds setting ⟨.new setting.position, 0⟩ :=
    ⟨(Ground.presence_turns hj.bears).new ha.sits, Location.le_refl _⟩
  unfold Packrat.tryRepetition
  simp only
  rw [Rounds.drive_eq_takeTurns, Rounds.drive_eq_takeTurns]
  refine .first (takeTurns_same (fun _ hrounds => Rounds.turn_onward hj h.kept ha hrounds) (fun _ => id)
    (fun _ hrounds => h.round ha hrounds) hrounds (.inr ⟨?_, ?_⟩))
  · show job.remaining setting.position < job.remaining setting.position + job.slack + 1
    omega
  · show job.remaining setting.position < job.remaining setting.position + slack + 1
    omega

omit h in
theorem tryRule {name : String} (h : job.Mimics (some (name, setting.location)) depth apply apply')
    (ha : job.presence.Admits m (.rule name) setting) : (job.presence.stance (some (name, setting.location)) depth).Same
      (Packrat.tryRule job apply name setting) (Packrat.tryRule (job.allowing slack) apply' name setting) := by
  unfold Packrat.tryRule
  rw [show (job.allowing slack).grammar = job.grammar from rfl]
  split
  · exact .refl
  · next body hb =>
    refine bind (Q := fun _ => True) .refl .emit fun _ _ => ?_
    refine bind (Q := fun _ => True) .refl (.count (fun _ => Nat.le_refl _) fun _ => Nat.le_refl _) fun _ _ => .first ?_
    exact h.same body _ ⟨.body hb, ha.sits, ha.mode.skippingIn name, Mark.behind_entered⟩

omit h in
theorem evaluate (slack : Nat) (hj : job.Rooted) (h : job.Mimics (m.inside e.reference? setting.location) depth apply apply')
    (ha : job.presence.Admits m e setting) : (job.presence.stance (m.inside e.reference? setting.location) depth).Same
      (Packrat.evaluate job apply e setting) (Packrat.evaluate (job.allowing slack) apply' e setting) := by
  have hC := Ground.presence_lawful hj.bears
  have hpart {body : Expr} (hm : m.inside e.reference? setting.location = m) (hp : body ∈ e.parts) :
      job.presence.Admits (m.inside e.reference? setting.location) body setting := by
    rw [hm]
    exact ⟨ha.has.part hp, ha.sits, ha.mode, ha.behind⟩
  cases e with
  | literal | pattern | external => exact .refl
  | rule name => exact tryRule h ha
  | sequence parts =>
    have hm : m.Behind (Run.new parts false setting 0).setting.location := ha.behind
    exact h.finish hj hm (.new hC ha)
  | merge parts =>
    have hm : m.Behind (Run.new parts true setting 0).setting.location := ha.behind
    exact h.finish hj hm (.new hC ha)
  | choice alternatives =>
    exact h.tryChoice hj ha.mode ha.sits ha.behind (fun e he => ha.has.part he) .nothing
  | repetition body bounds fallback => exact h.tryRepetition hj ha
  | ahead body | notAhead body | omission body => exact .first (h.same body setting (hpart rfl List.mem_cons_self))

end Job.Mimics

/-! ## Parses -/

section

variable {job : Job} {slack levels : Nat} {m : Mark} {depth : Nat} {e : Expr} {setting : Setting} {s : Session}

/-- The session in which a ready expression is worked out. -/
theorem Contract.Ready.deeper {C : Contract job} (h : C.Ready e setting s) :
    (C.stance (Mark.inside s.entered e.reference? setting.location) (s.depth + 1)).Fits
      ((s.missed job).deeper job e.reference? setting.location) where
  memory := h.memory
  mark := rfl
  depth := rfl
  deepest hc := by
    have hc : job.options.counting = true := hc
    unfold Session.deeper
    simp only [hc, if_true]
    exact Nat.le_max_right _ _

/-- However many turns loops are allowed beyond those that they need, ready expressions come to the same. -/
theorem Job.Rooted.allowing (hj : job.Rooted) (slack : Nat) : ∀ (levels : Nat) {e : Expr} {setting : Setting} {s : Session},
    job.presence.Ready e setting s →
      (applyWithin (job.allowing slack) levels e setting).on s = (applyWithin job levels e setting).on s
  | 0, _, _, _, _ => rfl
  | levels + 1, e, setting, s, hready => by
    have hC := Ground.presence_lawful hj.bears
    have hmimics : job.Mimics (Mark.inside s.entered e.reference? setting.location) (s.depth + 1) (applyWithin job levels)
        (applyWithin (job.allowing slack) levels) :=
      ⟨hC.kept levels _ _, fun e setting ha s hs => hj.allowing slack levels ⟨hs.memory, hs.deepest, hs.mark ▸ ha⟩⟩
    by_contra hne
    let other := Packrat.evaluate (job.allowing slack) (applyWithin (job.allowing slack) levels)
    have hne : (remembering job other e setting).on s ≠
        (remembering job (Packrat.evaluate job (applyWithin job levels)) e setting).on s := hne
    obtain ⟨-, -, hwork⟩ := of_remembering_ne hne
    exact hwork (hmimics.evaluate slack hj hready.admits _ hready.deeper)

/-- In the course of a parse, expressions are tried only where they are ready to be. -/
theorem Job.Rooted.ready_of_applies (hj : job.Rooted) {root : Expr} (hroot : job.grammar.Has root) {call : Call}
    (h : job.Applies root levels call) : job.presence.Ready call.expr call.setting call.session := by
  induction h with
  | root => exact .start Position.sits_origin hroot
  | @inner levels call next _ hcalls ih =>
    obtain ⟨-, -, other, hsame, hne⟩ := calls_evaluate hcalls
    let m := Mark.inside call.session.entered call.expr.reference? call.setting.location
    -- whatever came of an expression that is not ready would not matter
    by_contra hn
    have hmimics : job.Mimics m (call.session.depth + 1) (applyWithin job levels) other := by
      refine ⟨(Ground.presence_lawful hj.bears).kept levels _ _, fun e setting ha s hs => hsame e setting s fun heq => hn ?_⟩
      subst heq
      exact ⟨hs.memory, hs.deepest, hs.mark ▸ ha⟩
    exact hne (hmimics.evaluate job.slack hj ih.admits _ ih.deeper)

end

end Packrat

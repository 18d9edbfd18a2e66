/-
Whatever is tried echoes a parse without a memory. Where the rule entered last cannot be come back to,
an expression comes to what it comes to without a memory, whichever rule was entered last and whichever
rule is around it. This is shown for each kind of expression on the assumption that its parts do so.
-/
import Packrat.Proofs.Memory.Steadiness

namespace Packrat

open Filter Stance

/-- A verdict, or the end of the parse. Results lie in the text. -/
def Attempt.Definite (input : List Char) : Attempt → Prop
  | .settled (.matched t) => t.Lies (Position.Place input)
  | .settled (.omitted span) => Position.Place input span.stop
  | .settled (.silent _) | .settled (.failed _) | .broken _ => True
  | .recursion _ => False

/-- Without a memory, the expression comes to the attempt under every mark under which it is quiet, and
inside of every rule. -/
def Job.Tells (job : Job) (e : Expr) (setting : Setting) (a : Attempt) : Prop :=
  ∀ m rule, job.Quiet m e setting → ∀ᶠ n in atTop, (applyWithin job.forgetful n e (setting.under rule)).Tells m a

/-- In the stance, expressions come to what they come to without a memory. -/
def Stance.Echoes (k : Stance) (cycles : List Cycle) (apply : Applier) : Prop :=
  ∀ e setting, k.Yields (k.job.Fair cycles [k.mark] e setting) (apply e setting) fun a =>
    a.Definite k.job.input ∧ k.job.Tells e setting a

/-- The same run inside another rule. -/
def Run.under (run : Run) (rule : Option String) : Run := { run with setting := run.setting.under rule }

theorem Run.under_eq {run : Run} {rule : Option String} (h : run.setting.rule = rule) : run.under rule = run := by
  subst h
  rfl

/-- A run for an expression that a parse gets to, whose remaining parts are outside of the recursive alternatives
and quiet under some marks. -/
structure Run.Fair (job : Job) (cycles : List Cycle) (marks : List Mark) (run : Run) : Prop where
  outside : ∀ part ∈ run.parts.drop run.done, job.grammar.Outside cycles part
  reached : ∃ e, e.chain? = some run.parts ∧ job.grammar.Reaches (e, run.setting.skipping)
  stands : run.collected.Stands (Ground.text job.input)
  quiet : ∀ m ∈ marks, job.Quiet m (.sequence (run.parts.drop run.done)) run.here

namespace Run.Fair

variable {job : Job} {cycles : List Cycle} {marks : List Mark} {run : Run} {part : Expr}

theorem current (h : run.Fair job cycles marks) (hp : run.parts[run.done]? = some part) :
    job.Fair cycles marks part run.here := by
  obtain ⟨e, hc, hreached⟩ := h.reached
  have hpart : part ∈ e.parts := Expr.parts_of_chain? hc ▸ List.mem_of_getElem? hp
  refine ⟨h.outside _ ?_, hreached.tail (.part hpart), h.stands.cursor, fun m hm => (h.quiet m hm).first hp⟩
  obtain ⟨hlt, rfl⟩ := List.getElem?_eq_some_iff.1 hp
  rw [List.drop_eq_getElem_cons hlt]
  exact List.mem_cons_self

/-- What is skipped where a part failed. -/
theorem between (h : run.Fair job cycles marks) (hp : run.parts[run.done]? = some part) {s : Expr}
    (hs : job.skipper? run.setting.skipping = some s) : job.Fair cycles marks s run.here := by
  obtain ⟨e, hc, hreached⟩ := h.reached
  have he : e.Skips := Expr.skips_of_chain? hc (List.ne_nil_of_mem (List.mem_of_getElem? hp))
  have hskipper : job.grammar.Reaches (s, run.setting.skipping) := hreached.tail (.skipper he (job.skipper?_eq _ ▸ hs))
  refine ⟨hreached.has.2.1.outside hs, hskipper, h.stands.cursor, fun m hm => (h.quiet m hm).skipper ?_ hs⟩
  obtain ⟨hlt, -⟩ := List.getElem?_eq_some_iff.1 hp
  exact List.ne_nil_of_length_pos (by rw [List.length_drop]; omega)

/-- Behind a part that stays if it took nothing, the run goes on. -/
theorem next (h : run.Fair job cycles marks) (hp : run.parts[run.done]? = some part) {collected : Accumulator}
    {silence : Option Silence} (hs : collected.Stands (Ground.text job.input))
    (hle : run.collected.cursor.location ≤ collected.cursor.location)
    (hstays : run.collected.cursor.location = collected.cursor.location → job.Stays part) :
    (run.next collected silence).Fair job cycles marks := by
  refine ⟨fun part hm => h.outside part ?_, h.reached, hs, fun m hm => ?_⟩
  · rw [show (run.next collected silence).parts.drop (run.next collected silence).done = (run.parts.drop run.done).drop 1 by
      rw [List.drop_drop]; rfl] at hm
    exact List.mem_of_mem_drop hm
  · exact (h.quiet m hm).behind hp hle hstays

theorem skipped (h : run.Fair job cycles marks) {stop : Location} (hs : Position.Place job.input stop) :
    ({ run with collected := run.collected.skip job.input stop } : Run).Fair job cycles marks := by
  refine ⟨h.outside, h.reached, h.stands.skip hs, fun m hm => (h.quiet m hm).moved ?_⟩
  rw [Accumulator.cursor_skip]
  exact Position.le_moveTo _ _

end Run.Fair

section

variable {k : Stance} {cycles : List Cycle} {apply : Applier} {m : Mark} (rule : Option String) {e : Expr} {setting : Setting}

theorem Stance.Echoes.persists (h : k.Echoes cycles apply) (e : Expr) (setting : Setting) :
    k.alarm.Persists (apply e setting) := fun s => (h e setting s).1

/-- Trying an expression mirrors trying it without a memory. If it takes no input then it stays. -/
theorem Stance.Echoes.mirrors (h : k.Echoes cycles apply) : k.Mirrors (k.job.Fair cycles [k.mark, m] e setting)
    (apply e setting) m (fun n => applyWithin k.job.forgetful n e (setting.under rule)) id fun a =>
      a.Definite k.job.input ∧ (a.Idle setting.location → k.job.Stays e) := by
  refine ((h e setting).guard fun hf => ?_).post fun a hf ha => ?_
  · exact ⟨hf.outside, hf.reached, hf.sits, fun m' hm => hf.quiet m' (List.mem_cons.2 (.inl (List.mem_singleton.1 hm)))⟩
  · have htells := ha.2 m rule (hf.quiet m (by simp))
    exact ⟨⟨ha.1, fun hi => ⟨setting.under rule, m, a, hf.sits, hi, htells⟩⟩, htells⟩

/-! ## Skipping -/

/-- What is skipped takes input up to a place in the text. -/
def Skipped (job : Job) (acc : Accumulator) : Except GrammarError (Option Accumulator) → Prop
  | .ok (some collected) => ∃ stop, Position.Place job.input stop ∧ collected = acc.skip job.input stop
  | _ => True

theorem skipBetween_mirrors (h : k.Echoes cycles apply) {acc : Accumulator} :
    k.Mirrors (∀ s, k.job.skipper? setting.skipping = some s → k.job.Fair cycles [k.mark, m] s (setting.moved acc.cursor))
      (skipBetween k.job apply setting acc) m
      (fun n => skipBetween k.job.forgetful (applyWithin k.job.forgetful n) (setting.under rule) acc) id
      (Skipped k.job acc) := by
  unfold skipBetween
  have hsame : k.job.forgetful.skipper? (setting.under rule).skipping = k.job.skipper? setting.skipping := rfl
  cases hs : k.job.skipper? setting.skipping with
  | none =>
    simp only [hsame, hs]
    exact .pure (fun _ => trivial) rfl
  | some s =>
    simp only [hsame, hs]
    refine .bind ((h.mirrors rule).guard fun hf => hf s rfl) fun a => ?_
    rcases a with (t | why | span | failure) | suspension | error
    · refine .pure (fun ha => ?_) rfl
      show Skipped _ _ (.ok (acc.skip? k.job.input t.extent.stop))
      unfold Accumulator.skip?
      split
      · trivial
      · exact ⟨_, ha.2.1.stop, rfl⟩
    · exact .pure (fun _ => trivial) rfl
    · refine .pure (fun ha => ?_) rfl
      show Skipped _ _ (.ok (acc.skip? k.job.input span.stop))
      unfold Accumulator.skip?
      split
      · trivial
      · exact ⟨_, ha.2.1, rfl⟩
    · exact .pure (fun _ => trivial) rfl
    · exact .pure (fun ha => ha.2.1.elim) rfl
    · exact .pure (fun _ => trivial) rfl

/-! ## Runs -/

/-- What a run has come to under way: it goes on, or something definite came of it. -/
def Run.GoesOn (k : Stance) (cycles : List Cycle) (m : Mark) (run : Run) : Except Attempt Run → Prop
  | .ok further => run.Continues further ∧ further.Fair k.job cycles [k.mark, m] ∧
    run.collected.cursor.location ≤ further.collected.cursor.location
  | .error a => a.Definite k.job.input

variable {run : Run}

/-- The run with what came of its current part. -/
theorem absorb_mirrors (h : k.Echoes cycles apply) {a : Attempt} :
    k.Mirrors (run.Fair k.job cycles [k.mark, m] ∧ ∃ part, run.parts[run.done]? = some part ∧
        a.Definite k.job.input ∧ (a.Idle run.here.location → k.job.Stays part))
      (run.absorb k.job apply a) m
      (fun n => (run.under rule).absorb k.job.forgetful (applyWithin k.job.forgetful n) a) (Except.map (Run.under · rule))
      (run.GoesOn k cycles m) := by
  -- the cursor does not move back, so where it has not moved nothing was taken
  have idle {stop : Location} {cursor : Position} (hle : stop ≤ cursor.location)
      (heq : run.collected.cursor.location = cursor.location) : stop ≤ run.here.location := by
    show stop ≤ run.collected.cursor.location
    rw [heq]
    exact hle
  rcases a with (t | why | span | failure) | (_ | suspension) | error
  · refine .pure ?_ rfl
    rintro ⟨hf, part, hp, ht, hstays⟩
    have hle := @Run.le_cursor_collect k.job.input run t
    refine ⟨⟨rfl, rfl, rfl, rfl⟩, hf.next hp (Run.stands_collect hf.stands ht) hle fun heq => hstays ?_, hle⟩
    exact idle (Run.stop_le_cursor_collect t) heq
  · refine .pure ?_ rfl
    rintro ⟨hf, part, hp, -, hstays⟩
    exact ⟨⟨rfl, rfl, rfl, rfl⟩, hf.next hp hf.stands (Location.le_refl _) fun _ => hstays trivial, Location.le_refl _⟩
  · refine .pure ?_ rfl
    rintro ⟨hf, part, hp, hs, hstays⟩
    have hle := @Position.le_moveTo k.job.input run.collected.cursor span.stop
    refine ⟨⟨rfl, rfl, rfl, rfl⟩, hf.next hp (hf.stands.pass hs) hle fun heq => hstays ?_, hle⟩
    refine idle ?_ heq
    rw [Accumulator.cursor_pass, Position.location_moveTo]
    exact (Location.le_further _ _).2
  · refine .bind ((skipBetween_mirrors rule h).guard ?_)
      fun skipped => ?_
    · rintro ⟨hf, part, hp, -, -⟩ s hs
      exact hf.between hp hs
    · rcases skipped with error | (_ | collected)
      · exact .pure (fun _ => trivial) rfl
      · exact .pure (fun _ => trivial) rfl
      · refine .pure ?_ rfl
        rintro ⟨⟨hf, -⟩, stop, hstop, rfl⟩
        refine ⟨⟨rfl, rfl, rfl, rfl⟩, hf.skipped hstop, ?_⟩
        rw [Accumulator.cursor_skip]
        exact Position.le_moveTo _ _
  · exact .void .pure fun hf => hf.2.choose_spec.2.1
  · exact .void .pure fun hf => hf.2.choose_spec.2.1
  · exact .pure (fun _ => trivial) rfl

/-- A run whose parts are quiet never begins with the rule entered last. -/
theorem Run.Fair.not_reenters {marks : List Mark} {s : Session} {part : Expr} (h : run.Fair k.job cycles marks)
    (hm : m ∈ marks) (hs : s.entered = m) (hp : run.parts[run.done]? = some part) :
    s.reenters part run.here.location = false := by
  cases part with
  | rule name =>
    have haway := ((h.current hp).quiet m hm).away
    show (s.entered == some (name, run.here.location)) = false
    rw [hs]
    simpa using haway
  | _ => rfl

/-- Parts are tried until the run is complete or something else came of it. -/
theorem drive_mirrors (h : k.Echoes cycles apply) : ∀ (fuel : Nat) {run : Run},
    k.Mirrors (run.Fair k.job cycles [k.mark, m]) (run.drive k.job apply fuel) m
      (fun n => (run.under rule).drive k.job.forgetful (applyWithin k.job.forgetful n) fuel)
      (Except.map (Run.under · rule)) (run.GoesOn k cycles m) := by
  -- fairness carries the induction: what is left of the parts is quiet behind each part that was tried
  intro fuel
  induction fuel with
  | zero => exact .pure (fun _ => trivial) rfl
  | succ fuel ih =>
    intro run
    unfold Run.drive
    have hsame : (run.under rule).parts[(run.under rule).done]? = run.parts[run.done]? := rfl
    cases hp : run.parts[run.done]? with
    | none =>
      simp only [hsame, hp]
      exact .pure (fun hf => ⟨.refl run, hf, Location.le_refl _⟩) rfl
    | some part =>
      simp only [hsame, hp]
      have hwork : k.Mirrors (run.Fair k.job cycles [k.mark, m])
          (do match ← run.absorb k.job apply (← apply part run.here) with
            | .ok run => run.drive k.job apply fuel
            | .error a => return .error a) m
          (fun n => do
            match ← (run.under rule).absorb k.job.forgetful (applyWithin k.job.forgetful n)
              (← applyWithin k.job.forgetful n part (run.here.under rule)) with
            | .ok run => run.drive k.job.forgetful (applyWithin k.job.forgetful n) fuel
            | .error a => return .error a)
          (Except.map (Run.under · rule)) (run.GoesOn k cycles m) := by
        refine .bind ((h.mirrors rule).guard fun hf => hf.current hp) fun a => ?_
        refine .bind ((absorb_mirrors rule h).guard fun hf => ⟨hf.1, part, hp, hf.2⟩) fun r => ?_
        cases r with
        | error a => exact .pure And.right rfl
        | ok further =>
          refine (ih.guard fun hf => hf.2.2.1).post fun b hf hb => ?_
          obtain ⟨hcontinues, -, hle⟩ := hf.2
          cases b with
          | error a => exact hb
          | ok last => exact ⟨hcontinues.trans hb.1, hb.2.1, Location.le_trans hle hb.2.2⟩
      -- the rule entered last is not met again, with a memory or without
      refine Yields.bind_get fun s => .ite (fun hre => ?_) fun _ => (hwork.via fun hf n b hb => ?_).guard And.left
      · refine .void (Alarm.Persists.bind .reportReentry fun _ => .pure) fun hf => ?_
        rw [hf.1.not_reenters (by simp) hf.2.mark hp] at hre
        exact Bool.false_ne_true hre.2
      · refine .bind_get fun s' hs => ?_
        have hn : s'.reenters part (run.under rule).here.location = false := hf.not_reenters (by simp) hs hp
        rw [hn, if_neg fun hre => Bool.false_ne_true hre.2]
        exact hb

theorem Run.Fair.conclude {marks : List Mark} (h : run.Fair k.job cycles marks) :
    (Attempt.settled (run.conclude k.job)).Definite k.job.input := by
  rcases run.conclude_cases k.job with hc | ⟨why, -, -, hc⟩
  · rw [hc]
    exact h.stands.tree
  · rw [hc]
    trivial

/-- A run that may grow behind a position, where its parts but the first are tried again. -/
structure Run.MayGrow (job : Job) (cycles : List Cycle) (marks : List Mark) (run : Run) (cursor : Position) : Prop where
  outside : ∀ part ∈ run.parts.drop 1, job.grammar.Outside cycles part
  reached : ∃ e, e.chain? = some run.parts ∧ job.grammar.Reaches (e, run.setting.skipping)
  start : run.collected.start.Sits job.input
  sits : cursor.Sits job.input
  quiet : ∀ m ∈ marks, job.Quiet m (.sequence (run.parts.drop 1)) (run.setting.moved cursor)

theorem tail_mirrors (h : k.Echoes cycles apply) {cursor : Position} :
    k.Mirrors (run.MayGrow k.job cycles [k.mark, m] cursor) (run.tail k.job apply cursor) m
      (fun n => (run.under rule).tail k.job.forgetful (applyWithin k.job.forgetful n) cursor) id
      (Attempt.Definite k.job.input) := by
  refine .bind ((drive_mirrors rule h _).guard fun hg => ?_) fun r => ?_
  · exact ⟨hg.outside, hg.reached, Accumulator.stands_new hg.sits, hg.quiet⟩
  · cases r with
    | error a => exact .pure And.right rfl
    | ok further => exact .pure (fun hf => hf.2.2.1.conclude) rfl

/-- A run that grows comes to a pair of what it had and more, or it stays as it is. -/
theorem extend_mirrors (h : k.Echoes cycles apply) : ∀ (fuel : Nat) {cursor : Position} {t : Tree},
    k.Mirrors (run.MayGrow k.job cycles [k.mark, m] cursor ∧ t.Lies (Position.Place k.job.input))
      (run.extend k.job apply fuel cursor t) m
      (fun n => (run.under rule).extend k.job.forgetful (applyWithin k.job.forgetful n) fuel cursor t) id
      (Attempt.Definite k.job.input) := by
  intro fuel
  induction fuel with
  | zero => exact .pure And.right rfl
  | succ fuel ih =>
    intro cursor t
    unfold Run.extend
    refine .ite (fun _ => .pure And.right rfl) fun _ => ?_
    refine .bind ((tail_mirrors rule h).guard And.left) fun a => ?_
    rcases a with (more | why | span | failure) | suspension | error
    · refine .ite (fun _ => .pure (fun hg => hg.1.2) rfl) fun _ => ?_
      refine .bind (.count (fun _ => Nat.le_refl _) fun _ => Nat.le_refl _) fun _ => .bind .note fun _ => ih.guard ?_
      rintro ⟨⟨⟨⟨hg, ht⟩, hmore⟩, -⟩, -⟩
      have hcursor := hg.sits.moveTo_place (Tree.Lies.stop hmore)
      refine ⟨⟨hg.outside, hg.reached, hg.start, hcursor, fun m hm => (hg.quiet m hm).moved (Position.le_moveTo _ _)⟩, ?_⟩
      refine .intro hg.start.place hcursor.place ?_
      rintro _ ⟨⟩
      exact List.forall_mem_cons.2 ⟨ht, List.forall_mem_singleton.2 hmore⟩
    · exact .pure (fun hg => hg.1.2) rfl
    · exact .pure (fun hg => hg.1.2) rfl
    · exact .pure (fun hg => hg.1.2) rfl
    · exact .pure (fun hg => hg.1.2) rfl
    · exact .pure (fun _ => trivial) rfl

/-- A run is carried to its end, and grows if it was set aside. -/
theorem finish_mirrors (h : k.Echoes cycles apply) :
    k.Mirrors (run.Fair k.job cycles [k.mark, m] ∧ (run.growing = true → run.done = 1)) (run.finish k.job apply) m
      (fun n => (run.under rule).finish k.job.forgetful (applyWithin k.job.forgetful n)) id
      (Attempt.Definite k.job.input) := by
  refine .bind ((drive_mirrors rule h _).guard And.left) fun r => ?_
  cases r with
  | error a => exact .pure And.right rfl
  | ok last =>
    refine .ite (fun hgrowing => ?_) fun _ => .pure (fun hf => hf.2.2.1.conclude) rfl
    refine (extend_mirrors rule h _).guard ?_
    rintro ⟨⟨hf, hdone⟩, hcontinues, hlast, hle⟩
    rw [hcontinues.growing] at hgrowing
    have hdone := hdone hgrowing
    refine ⟨⟨?_, hlast.reached, hlast.stands.start, hlast.stands.cursor, fun m hm => ?_⟩, hlast.stands.tree⟩
    · rw [hcontinues.parts, ← hdone]
      exact hf.outside
    · have := (hf.quiet m hm).moved hle
      rw [hdone] at this
      rw [hcontinues.parts, hcontinues.setting]
      exact this

theorem trySequence_mirrors (h : k.Echoes cycles apply) {parts : List Expr} {flatten : Bool}
    (hc : e.chain? = some parts) : k.Mirrors (k.job.Fair cycles [k.mark, m] e setting)
      (trySequence k.job apply parts flatten setting) m
      (fun n => trySequence k.job.forgetful (applyWithin k.job.forgetful n) parts flatten (setting.under rule)) id
      (Attempt.Definite k.job.input) := by
  refine (finish_mirrors rule h).guard fun hf => ⟨⟨fun part hp => hf.outside.part ?_, ⟨e, hc, hf.reached⟩,
    Accumulator.stands_new hf.sits, fun m hm => (hf.quiet m hm).chain hc⟩, fun hg => Bool.noConfusion hg⟩
  rwa [Expr.parts_of_chain? hc]

/-! ## Choices -/

/-- The alternatives of a choice are tried in order. -/
theorem tryChoice_mirrors (h : k.Echoes cycles apply) : ∀ {alternatives : List Expr} {tried : Tried},
    k.Mirrors ((∀ e ∈ alternatives, k.job.Fair cycles [k.mark, m] e setting) ∧ tried.recursion = none)
      (tryChoice k.job apply setting alternatives tried) m
      (fun n => tryChoice k.job.forgetful (applyWithin k.job.forgetful n) (setting.under rule) alternatives tried) id
      (Attempt.Definite k.job.input) := by
  -- what came of an alternative is definite, so nothing is ever set aside
  intro alternatives
  induction alternatives with
  | nil =>
    intro tried
    refine .pure ?_ rfl
    rintro ⟨-, hn⟩
    unfold Tried.exhausted
    rw [hn]
    split
    · trivial
    · next hs => cases hs
    · trivial
  | cons e others ih =>
    intro tried
    unfold tryChoice
    refine .bind ((h.mirrors rule).guard fun hf => hf.1 e List.mem_cons_self) fun a => ?_
    rcases a with (t | why | span | failure) | suspension | error
    · rcases hr : tried.recursion with _ | (_ | suspension)
      case some.some =>
        refine .void (Alarm.Persists.plantSeed h.persists) ?_
        rintro ⟨⟨-, hn⟩, -⟩
        cases hn
      all_goals exact .pure (fun hf => hf.2.1) rfl
    · exact .pure (fun _ => trivial) rfl
    · exact .pure (fun hf => hf.2.1) rfl
    · refine .bind .emit fun _ => .bind (.count (fun _ => Nat.le_refl _) fun _ => Nat.le_refl _) fun _ => ih.guard ?_
      rintro ⟨⟨⟨⟨hf, hn⟩, -⟩, -⟩, -⟩
      refine ⟨fun e he => hf e (List.mem_cons_of_mem _ he), ?_⟩
      unfold Tried.failed
      split <;> exact hn
    · exact ih.guard fun hf => hf.2.1.elim
    · exact .pure (fun _ => trivial) rfl

/-! ## Repetitions -/

/-- What the rounds of a repetition have come to: they are collected in the text, or something definite
came of them. -/
def Rounds.Stands (input : List Char) : Except Attempt Rounds → Prop
  | .ok rounds => rounds.collected.Stands (Ground.text input)
  | .error a => a.Definite input

/-- Rounds are tried until one does not match, does not get further or decides for the repetition. -/
theorem rounds_mirrors (h : k.Echoes cycles apply) {body : Expr} {bounds : Bounds} {fallback : Option Tree} :
    ∀ (fuel : Nat) {rounds : Rounds},
      k.Mirrors (k.job.Fair cycles [k.mark, m] (.repetition body bounds fallback) (setting.moved rounds.collected.cursor) ∧
          rounds.collected.Stands (Ground.text k.job.input))
        (rounds.drive k.job apply body bounds setting fuel) m
        (fun n => rounds.drive k.job.forgetful (applyWithin k.job.forgetful n) body bounds (setting.under rule) fuel) id
        (Rounds.Stands k.job.input) := by
  intro fuel
  induction fuel with
  | zero => exact .pure And.right rfl
  | succ fuel ih =>
    intro rounds
    have go {cursor : Position} (hf : k.job.Fair cycles [k.mark, m] (.repetition body bounds fallback)
        (setting.moved rounds.collected.cursor)) (hle : rounds.collected.cursor.location ≤ cursor.location)
        (hs : cursor.Sits k.job.input) :
        k.job.Fair cycles [k.mark, m] (.repetition body bounds fallback) (setting.moved cursor) :=
      ⟨hf.outside, hf.reached, hs, fun m hm => (hf.quiet m hm).moved hle⟩
    unfold Rounds.drive
    refine .ite (fun _ => .pure And.right rfl) fun _ => ?_
    refine .bind ((h.mirrors rule).guard fun hf => hf.1.of_part rfl List.mem_cons_self) fun a => ?_
    rcases a with (t | (_ | _ | _) | span | failure) | suspension | error
    · refine .ite (fun _ => .pure (fun hf => hf.1.2.add hf.2.1) rfl) fun _ => ih.guard fun hf => ?_
      have hstands := hf.1.2.add hf.2.1
      exact ⟨go hf.1.1 (Position.le_moveTo _ _) hstands.cursor, hstands⟩
    · exact .pure (fun hf => hf.1.2) rfl
    · exact .pure (fun _ => trivial) rfl
    · exact .pure (fun _ => trivial) rfl
    · refine .ite (fun _ => .pure (fun hf => hf.1.2) rfl) fun _ => ih.guard fun hf => ?_
      have hstands := hf.1.2.pass hf.2.1
      exact ⟨go hf.1.1 (Position.le_moveTo _ _) hstands.cursor, hstands⟩
    · refine .bind ((skipBetween_mirrors rule h).guard fun hf s hs => ?_) fun skipped => ?_
      · have hskipper : k.job.grammar.Reaches (s, setting.skipping) :=
          hf.1.1.reached.tail (.skipper trivial (k.job.skipper?_eq _ ▸ hs))
        exact ⟨hf.1.1.reached.has.2.1.outside hs, hskipper, hf.1.1.sits, fun m hm => (hf.1.1.quiet m hm).skipper trivial hs⟩
      · rcases skipped with error | (_ | collected)
        · exact .pure (fun _ => trivial) rfl
        · exact .pure (fun hf => hf.1.1.2) rfl
        · refine ih.guard ?_
          rintro ⟨⟨⟨hf, hstands⟩, -⟩, stop, hstop, rfl⟩
          have hskipped := hstands.skip hstop
          refine ⟨go hf ?_ hskipped.cursor, hskipped⟩
          rw [Accumulator.cursor_skip]
          exact Position.le_moveTo _ _
    · exact .void .pure fun hf => hf.2.1
    · exact .pure (fun _ => trivial) rfl

theorem tryRepetition_mirrors (hj : k.job.Steady cycles) (h : k.Echoes cycles apply) {body : Expr} {bounds : Bounds}
    {fallback : Option Tree} : k.Mirrors (k.job.Fair cycles [k.mark, m] (.repetition body bounds fallback) setting)
      (tryRepetition k.job apply body bounds fallback setting) m
      (fun n => tryRepetition k.job.forgetful (applyWithin k.job.forgetful n) body bounds fallback (setting.under rule)) id
      (Attempt.Definite k.job.input) := by
  refine .bind ((rounds_mirrors rule h _).guard fun hf => ⟨hf, Accumulator.stands_new hf.sits⟩) fun r => ?_
  cases r with
  | error a => exact .pure And.right rfl
  | ok rounds =>
    refine .pure ?_ rfl
    rintro ⟨hf, hstands⟩
    have hstands : rounds.collected.Stands (Ground.text k.job.input) := hstands
    unfold Rounds.conclude
    split
    · split
      · next t =>
        -- a fallback is put where the repetition began
        refine .intro ?_ ?_ fun items hi => hj.fallbacks _ _ t (hj.has_outside hf.outside) items ?_
        · rw [Tree.extent_movedTo]
          exact hf.sits.place
        · rw [Tree.extent_movedTo]
          exact hf.sits.place
        · rw [← hi]
          cases t <;> rfl
      · trivial
    · split
      · trivial
      · split
        · exact hstands.stop.place
        · exact hstands.tree

/-! ## Expressions -/

theorem wrapAttempt_definite {job : Job} {name : String} {a : Attempt} (ha : a.Definite job.input) :
    (wrapAttempt job name a).Definite job.input := by
  rcases a with (t | why | span | failure) | suspension | error
  · unfold wrapAttempt
    simp only
    split
    · next ht => exact Grammar.lies_produce ht ha
    · trivial
  · exact ha
  · exact ha
  · exact ha
  · exact ha.elim
  · exact ha

theorem literal_definite {job : Job} {p : Position} (hp : p.Sits job.input) (text : List Char) :
    (Attempt.settled (literalVerdict text (p.rest job.input) p.location)).Definite job.input := by
  unfold literalVerdict
  split
  · next stop h =>
    obtain ⟨⟨more, hr⟩, rfl⟩ := (readLiteral_eq_ok _ _ _ _ _).1 h
    exact .intro hp.place (hp.place_after hr.symm) nofun
  · trivial

theorem pattern_definite {job : Job} {p : Position} (hp : p.Sits job.input) {pattern : Pattern} (ha : pattern.Anchored job.grammar.engine) :
    (Attempt.settled (patternVerdict job.grammar.engine pattern (p.rest job.input) p.location)).Definite job.input := by
  unfold patternVerdict
  split
  · next groups h =>
    obtain ⟨more, hr⟩ := ha _ _ h
    exact .intro hp.place (hp.place_after hr.symm) nofun
  · trivial

theorem omission_definite {job : Job} {setting : Setting} {a : Attempt} (hp : setting.position.Sits job.input)
    (ha : a.Definite job.input) : (omissionAttempt job setting a).Definite job.input := by
  rcases a with (t | (_ | _ | _) | span | failure) | suspension | error
  · exact (hp.moveTo_place (Tree.Lies.stop ha)).place
  · exact hp.place
  · trivial
  · trivial
  · exact ha
  · trivial
  · exact ha.elim
  · trivial

/-- In the stance, the body of a cycle comes to what it comes to without a memory, where the rule is
entered. -/
def Stance.EchoesBody (k : Stance) (r : Cycle) (apply : Applier) : Prop :=
  ∀ setting mode, setting.rule = some r.name → setting.skipping = k.job.skippingIn r.name mode →
    k.mark = some (r.name, setting.location) →
      k.Yields (setting.position.Sits k.job.input ∧ k.job.grammar.Reaches (.rule r.name, mode)) (apply r.body setting) fun a =>
        a.Definite k.job.input ∧ ∀ᶠ n in atTop, (applyWithin k.job.forgetful n r.body setting).Tells k.mark a

/-- The body of a rule is tried where the rule is entered. -/
theorem tryRule_mirrors (hj : k.job.Steady cycles) (h : k.Echoes cycles apply)
    (hbodies : ∀ r ∈ cycles, k.EchoesBody r apply) {name : String} {marks : List Mark}
    (hm : k.mark = some (name, setting.location)) :
    k.Mirrors (k.job.Fair cycles marks (.rule name) setting) (tryRule k.job apply name setting) k.mark
      (fun n => tryRule k.job.forgetful (applyWithin k.job.forgetful n) name (setting.under rule)) id
      (Attempt.Definite k.job.input) := by
  unfold tryRule
  have hsame : k.job.forgetful.grammar.rule? name = k.job.grammar.rule? name := rfl
  cases hb : k.job.grammar.rule? name with
  | none =>
    simp only [hsame, hb]
    exact .pure (fun _ => trivial) rfl
  | some body =>
    simp only [hsame, hb]
    let inside : Setting := ⟨setting.position, some name, k.job.skippingIn name setting.skipping⟩
    have hbody : k.Mirrors (k.job.Fair cycles marks (.rule name) setting) (apply body inside) k.mark
        (fun n => applyWithin k.job.forgetful n body inside) id (Attempt.Definite k.job.input) := by
      -- the body of a cycle is quiet under no mark of its own rule, so it is left to what is known of bodies
      by_cases hr : ∃ r ∈ cycles, r.name = name
      · obtain ⟨r, hr, rfl⟩ := hr
        cases hb.symm.trans (hj.closed r hr).body
        exact (hbodies r hr inside setting.skipping rfl rfl hm).guard fun hf => ⟨hf.sits, hf.reached⟩
      · have hn : ∀ r ∈ cycles, r.name ≠ name := fun r hmem he => hr ⟨r, hmem, he⟩
        refine ((h.mirrors (some name)).guard fun hf => ?_).post fun a _ ha => ha.1
        have hquiet : k.job.Quiet k.mark body inside := by
          rw [hm]
          exact @Job.Quiet.entered _ _ inside _ (hj.others name body _ hb hn hf.reached)
        exact ⟨.body hb hn, hf.reached.tail (.body hb), hf.sits, List.forall_mem_cons.2 ⟨hquiet, List.forall_mem_singleton.2 hquiet⟩⟩
    refine .bind .emit fun _ => .bind (.count (fun _ => Nat.le_refl _) fun _ => Nat.le_refl _) fun _ => ?_
    refine .bind (hbody.guard fun hf => hf.1.1) fun a => ?_
    exact .bind .emit fun _ => .pure (fun hf => wrapAttempt_definite hf.2.2) rfl

theorem evaluate_mirrors (hj : k.job.Steady cycles) (h : k.Echoes cycles apply)
    (hbodies : ∀ r ∈ cycles, k.EchoesBody r apply) {mark : Mark}
    (hk : k.mark = mark.inside e.reference? setting.location) :
    k.Mirrors (k.job.Fair cycles [mark, m] e setting) (evaluate k.job apply e setting)
      (m.inside e.reference? setting.location)
      (fun n => evaluate k.job.forgetful (applyWithin k.job.forgetful n) e (setting.under rule)) id
      (Attempt.Definite k.job.input) := by
  cases e with
  | rule name =>
    have hm : m.inside (Expr.rule name).reference? setting.location = k.mark := hk.symm
    rw [hm]
    exact tryRule_mirrors rule hj h hbodies hk
  | literal text => exact .pure (fun hf => literal_definite hf.sits text) rfl
  | pattern p => exact .pure (fun hf => pattern_definite hf.sits (hj.anchored p (hj.has_outside hf.outside))) rfl
  | external key => exact .void .pure fun hf => hj.internal key (hj.has_outside hf.outside)
  | sequence parts =>
    obtain rfl : k.mark = mark := hk
    exact trySequence_mirrors rule h rfl
  | merge parts =>
    obtain rfl : k.mark = mark := hk
    exact trySequence_mirrors rule h rfl
  | choice alternatives =>
    obtain rfl : k.mark = mark := hk
    exact (tryChoice_mirrors rule h).guard fun hf => ⟨fun e he => hf.of_part rfl he, rfl⟩
  | repetition body bounds fallback =>
    obtain rfl : k.mark = mark := hk
    exact tryRepetition_mirrors rule hj h
  | ahead body =>
    obtain rfl : k.mark = mark := hk
    refine .bind ((h.mirrors rule).guard fun hf => hf.of_part rfl List.mem_cons_self) fun a => .pure (fun hf => ?_) rfl
    rcases a with v | suspension | error
    · unfold aheadAttempt
      simp only
      split <;> trivial
    · exact hf.2.1
    · trivial
  | notAhead body =>
    obtain rfl : k.mark = mark := hk
    refine .bind ((h.mirrors rule).guard fun hf => hf.of_part rfl List.mem_cons_self) fun a => .pure (fun hf => ?_) rfl
    rcases a with v | suspension | error
    · unfold notAheadAttempt
      simp only
      split <;> trivial
    · exact hf.2.1
    · trivial
  | omission body =>
    obtain rfl : k.mark = mark := hk
    refine .bind ((h.mirrors rule).guard fun hf => hf.of_part rfl List.mem_cons_self) fun a => .pure (fun hf => ?_) rfl
    exact omission_definite hf.1.sits hf.2.1

end

end Packrat

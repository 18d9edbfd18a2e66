/-
Sequences keep to a lawful contract, and so does suspended work. If whatever is tried in a session is
fine, then a run goes from one good state to the next until it is complete; one that was set aside
does so with a seed, and every piece of work that waits for it comes to a verdict that is fine.
-/
import Packrat.Proofs.Contract.Laws

namespace Packrat

open Stance

variable {job : Job} {C : Contract job}

/-- Goes on with what came of the current part of a run. -/
def Run.goOn (job : Job) (apply : Applier) (run : Run) (attempt : Attempt) : Eval Attempt := do
  match ← run.absorb job apply attempt with
  | .ok run => run.finish job apply
  | .error attempt => return attempt

/-- A run that does not wait for a seed is resumed with what came of its current part. -/
theorem Run.resume_of_ready {apply : Applier} {run : Run} {a : Attempt} (h : run.needsSeed = false) :
    run.resume job apply a = run.goOn job apply a := by
  obtain ⟨parts, flatten, setting, collected, done, silence, growing, needsSeed⟩ := run
  cases h
  rfl

namespace Contract

/-! ## Suspended work -/

section

variable {e e₁ e₂ : Expr} {p p₁ p₂ o : Position} {works others : List Waiting} {R R' : Option Suspension → Prop} {a : Attempt}

theorem Comes.imp (h : C.Comes R e p a) (f : ∀ s, a = .recursion s → R s → R' s) : C.Comes R' e p a := by
  cases a with
  | settled v => exact h
  | recursion s => exact f s rfl h
  | broken error => trivial

theorem Comes.weaken (h : C.Comes R e p a) : C.Comes (fun _ => True) e p a := h.imp fun _ _ _ => trivial

theorem Feeds.append (h : C.Feeds e p works e₁ p₁) (h' : C.Feeds e₁ p₁ others e₂ p₂) :
    C.Feeds e p (works ++ others) e₂ p₂ := by
  induction h with
  | done => exact h'
  | sequence hon hp _ ih => exact .sequence hon hp (ih h')
  | memory he hl _ ih => exact .memory he hl (ih h')
  | wrapping hr hb _ ih => exact .wrapping hr hb (ih h')
  | choice hc hm _ ih => exact .choice hc hm (ih h')

/-- Work in the middle of something is done no earlier in the text. -/
theorem Feeds.le (h : C.Feeds e p works e₁ p₁) : p₁.location ≤ p.location := by
  induction h with
  | done => exact Location.le_refl _
  | sequence hon _ _ ih => exact Location.le_trans ih hon.forward
  | memory _ _ _ ih => exact ih
  | wrapping _ _ _ ih => exact ih
  | choice _ _ _ ih => exact ih

theorem Awaits.append {suspension : Suspension} (h : C.Awaits suspension e p o) (h' : C.Feeds e p works e₁ p₁) :
    C.Awaits (suspension ++ works) e₁ p₁ o := by
  obtain ⟨hon, hr, hd, hf⟩ := h
  exact .intro hon hr hd (hf.append h')

end

/-! ## Sessions -/

/-- A remembered verdict is fine wherever its question is asked. -/
def Remembers (C : Contract job) (q : Question) (v : Verdict) : Prop :=
  job.grammar.Has q.expr ∧ ∀ p, C.At p → p.location = q.location → C.Fine q.expr p v

/-- The stance of a parse whose remembered verdicts are fine. -/
def stance (C : Contract job) (m : Mark) (depth : Nat) : Stance := ⟨job, .none, Memory.Keeps C.Remembers, m, depth⟩

/-- Where an expression may be tried. -/
structure Admits (C : Contract job) (m : Mark) (e : Expr) (setting : Setting) : Prop where
  has : job.grammar.Has e
  sits : C.At setting.position
  mode : job.grammar.Mode setting.skipping
  behind : m.Behind setting.location

/-- Whatever comes of trying an expression in the stance is fine. -/
def KeptBy (C : Contract job) (m : Mark) (depth : Nat) (apply : Applier) : Prop :=
  ∀ e setting, C.Admits m e setting →
    (C.stance m depth).Yields True (apply e setting) (C.Comes (C.Signal m e setting.position) e setting.position)

section

variable {α β : Type} {m : Mark} {depth : Nat}

/-- The second step goes on from what the first one yields. -/
theorem bind {x : Eval α} {f : α → Eval β} {Q : α → Prop} {R : β → Prop} (hx : (C.stance m depth).Yields True x Q)
    (hf : ∀ a, Q a → (C.stance m depth).Yields True (f a) R) : (C.stance m depth).Yields True (x >>= f) R :=
  Yields.bind hx fun a => .given (fun _ => id) fun h => hf a h.2

theorem pure {a : α} {Q : α → Prop} (h : Q a) : (C.stance m depth).Yields True (Pure.pure a) Q := Yields.pure fun _ => h

end

/-! ## Runs -/

/-- What ends a sequence early. -/
def Stops (C : Contract job) (R : Option Suspension → Prop) : Attempt → Prop
  | .settled v => ∃ f, v = .failed f ∧ C.Ends f.stop
  | .recursion suspension => R suspension
  | .broken _ => True

section

variable {m : Mark} {depth : Nat} {apply : Applier} {first : Nat} {origin run : Run} {part : Expr} {a : Attempt}
  {R : Option Suspension → Prop}

theorem Stops.comes {e : Expr} {p : Position} (hC : C.Lawful) (h : C.Stops R a) : C.Comes R e p a := by
  cases a with
  | settled v =>
    obtain ⟨f, rfl, hf⟩ := h
    exact hC.plain.failed.2 hf
  | recursion suspension => exact h
  | broken error => trivial

namespace On

theorem at_cursor (hC : C.Lawful) (h : C.On first origin run) : C.At run.collected.cursor := hC.chains.cursor h.going

/-- Going on to the next part. -/
theorem next {acc : Accumulator} {silence : Option Silence} (h : C.On first origin run)
    (hle : run.collected.cursor.location ≤ acc.cursor.location) (hgoing : C.Going first (run.next acc silence)) :
    C.On first origin (run.next acc silence) where
  has := h.has
  sits := h.sits
  mode := h.mode
  continues := ⟨h.continues.parts, h.continues.flatten, h.continues.setting, h.continues.growing⟩
  forward := Location.le_trans h.forward hle
  still := fun hd => absurd hd (Nat.succ_ne_zero _)
  seeded := fun _ => Nat.succ_pos _
  ready := h.ready
  going := hgoing

/-- Skipping to where the current part is tried again. -/
theorem skip (hC : C.Lawful) (h : C.On first origin run) {stop : Location}
    (hs : C.Skips run.setting.skipping run.collected.cursor stop) :
    C.On first origin { run with collected := run.collected.skip job.input stop } := by
  refine { h with
    continues := ⟨h.continues.parts, h.continues.flatten, h.continues.setting, h.continues.growing⟩
    forward := ?_, still := fun _ _ => ?_, going := hC.chains.skipped h.going hs }
  · show run.setting.location ≤ (run.collected.skip job.input stop).cursor.location
    rw [Accumulator.cursor_skip]
    exact Location.le_trans h.forward (Position.le_moveTo _ _)
  · obtain ⟨_, _, hskipper, _⟩ := hs
    exact h.mode.skipping hskipper

/-- A sequence or merge that is tried is a run in a good state. -/
theorem new {parts : List Expr} {flatten : Bool} {setting : Setting} (hC : C.Lawful)
    (ha : C.Admits m (Run.new parts flatten setting 0).expr setting) :
    C.On 0 (.new parts flatten setting 0) (.new parts flatten setting 0) where
  has := ha.has
  sits := ha.sits
  mode := ha.mode
  continues := .refl _
  forward := Location.le_refl _
  still _ hne := absurd rfl hne
  seeded := nofun
  ready := rfl
  going := hC.chains.new ha.sits

/-- So is another go at all parts but the first of a run that has grown. -/
theorem tail {run : Run} {cursor : Position} {t : Tree} (hC : C.Lawful) (hhas : job.grammar.Has run.expr)
    (hmode : job.grammar.Mode run.setting.skipping) (hg : C.Grown run cursor t) :
    let further := Run.new run.parts run.flatten (run.setting.moved cursor) 1
    C.On 1 further further where
  has := hhas
  sits := hC.chains.cursor (hC.chains.tail hg)
  mode := hmode
  continues := .refl _
  forward := Location.le_refl _
  still := fun hd => absurd hd Nat.one_ne_zero
  seeded := fun _ => Nat.one_pos
  ready := rfl
  going := hC.chains.tail hg

/-- A run that was set aside goes on behind its first part, once there is a result for that. -/
theorem planted {run : Run} (hC : C.Lawful) (hon : C.On 0 run run) (hp : run.parts[run.done]? = some part) (hd : run.done = 0)
    {t : Tree} (ht : C.Fine part run.collected.cursor (.matched t)) :
    let aside : Run := { run with growing := true, needsSeed := false }
    C.On 0 aside (aside.next (aside.collect job.input t) none) where
  has := hon.has
  sits := hon.sits
  mode := hon.mode
  continues := ⟨rfl, rfl, rfl, rfl⟩
  forward := Location.le_trans hon.forward (Run.le_cursor_collect t)
  still := fun hd => absurd hd (Nat.succ_ne_zero _)
  seeded := fun _ => Nat.succ_pos _
  ready := rfl
  going := hC.chains.matched hon.has hp (hC.chains.aside hd hon.going) ht

/-- A part of a run may be tried where the run is. -/
theorem admits (hC : C.Lawful) (h : C.On first origin run) (hp : run.parts[run.done]? = some part)
    (hm : m.Behind run.setting.location) : C.Admits m part run.here where
  has := h.has.part (by rw [Expr.parts_of_chain? run.chain?_expr]; exact List.mem_of_getElem? hp)
  sits := h.at_cursor hC
  mode := h.mode
  behind := hm.mono h.forward

end On

/-- A skipper in effect is tried, and what it takes is skipped. -/
theorem skipBetween_kept (h : C.KeptBy m depth apply) {setting : Setting} {acc : Accumulator}
    (hmode : job.grammar.Mode setting.skipping) (hat : C.At acc.cursor) (hm : m.Behind acc.cursor.location) :
    (C.stance m depth).Yields True (skipBetween job apply setting acc) fun
      | .ok (some further) => ∃ stop, C.Skips setting.skipping acc.cursor stop ∧ further = acc.skip job.input stop
      | _ => True := by
  unfold skipBetween
  split
  · exact pure trivial
  · next skipper hs =>
    refine bind (h skipper (setting.moved acc.cursor) ⟨hmode.has hs, hat, hmode, hm⟩) fun a ha => ?_
    split
    · exact pure trivial
    · refine pure ?_
      cases hskip : a.skipStop?.bind (acc.skip? job.input) with
      | none => trivial
      | some further =>
        obtain ⟨stop, hstop, hfurther⟩ := Option.bind_eq_some_iff.1 hskip
        unfold Accumulator.skip? at hfurther
        split at hfurther
        · cases hfurther
        · next hle =>
          cases hfurther
          cases a with
          | settled v => exact ⟨stop, ⟨skipper, v, hs, ha, hstop, Location.not_le.1 hle⟩, rfl⟩
          | recursion | broken => cases hstop

/-- What came of a part takes a run on or ends it. -/
theorem absorb_kept (hC : C.Lawful) (h : C.KeptBy m depth apply) (hm : m.Behind run.setting.location)
    (hon : C.On first origin run) (hp : run.parts[run.done]? = some part)
    (ha : C.Comes R part run.collected.cursor a) :
    (C.stance m depth).Yields True (run.absorb job apply a) fun
      | .ok further => C.On first origin further
      | .error attempt =>
        C.Stops (fun s => ∃ s', R s' ∧ s = s'.map (· ++ [.sequence run])) attempt := by
  cases a with
  | settled v =>
    cases v with
    | matched t =>
      exact pure (hon.next (Run.le_cursor_collect t) (hC.chains.matched hon.has hp hon.going ha))
    | omitted span =>
      exact pure (hon.next (Position.le_moveTo _ _) (hC.chains.omitted hon.has hp hon.going ha))
    | silent why => exact pure (hon.next (Location.le_refl _) (hC.chains.silent hon.has hp hon.seeded hon.going ha))
    | failed failure =>
      refine bind (skipBetween_kept h hon.mode (hon.at_cursor hC) (hm.mono hon.forward)) fun skipped hs => ?_
      split
      · next collected =>
        obtain ⟨stop, hskips, rfl⟩ := hs
        exact pure (hon.skip hC hskips)
      · exact pure ⟨failure, rfl, hC.plain.failed.1 ha⟩
      · exact pure trivial
  | recursion suspension =>
    cases suspension with
    | none => exact pure ⟨none, ha, rfl⟩
    | some suspension => exact pure ⟨some suspension, ha, rfl⟩
  | broken error => exact pure trivial

/-- Parts are tried until the run is complete or something else comes of it. -/
theorem drive_kept (hC : C.Lawful) (h : C.KeptBy m depth apply) (hm : m.Behind origin.setting.location)
    (hself : ∀ run r, C.On first origin run → run.parts[run.done]? = some (.rule r) → run.done = 0 →
      m = some (r, run.collected.cursor.location) →
      R (some [.sequence { run with growing := true, needsSeed := true }]))
    (hpart : ∀ run part s, C.On first origin run → run.parts[run.done]? = some part →
      C.Signal m part run.collected.cursor s → R (s.map (· ++ [.sequence run]))) :
    ∀ (fuel : Nat) {run : Run}, C.On first origin run →
      (C.stance m depth).Yields True (run.drive job apply fuel) fun
        | .ok further => C.On first origin further ∧ further.parts[further.done]? = none
        | .error attempt => C.Stops R attempt
  | 0, run, hon => pure ⟨_, rfl, hC.plain.ends (hon.at_cursor hC)⟩
  | fuel + 1, run, hon => by
    have hm' : m.Behind run.setting.location := by
      rw [hon.continues.setting]
      exact hm
    unfold Run.drive
    split
    · next hp => exact pure ⟨hon, hp⟩
    · next part hp =>
      refine .next_get (fun _ => id) fun s hfits => ?_
      refine .ite (fun hre => ?_) fun _ => ?_
      · obtain ⟨hd, hre⟩ := hre
        cases part with
        | rule r =>
          have hmark : m = some (r, run.collected.cursor.location) := by
            have : s.entered = some (r, run.here.location) := by simpa [Session.reenters] using hre
            exact hfits.mark.symm.trans this
          exact bind (Q := fun _ => True) .reportReentry fun _ _ => pure (hself run r hon hp hd hmark)
        | _ => simp [Session.reenters] at hre
      · refine bind (h part run.here (hon.admits hC hp hm')) fun a ha => ?_
        refine bind (absorb_kept hC h hm' hon hp ha) fun r hr => ?_
        cases r with
        | ok further => exact drive_kept hC h hm hself hpart fuel hr
        | error attempt =>
          refine pure ?_
          cases attempt with
          | settled v => exact hr
          | recursion suspension =>
            obtain ⟨s', hs', rfl⟩ := hr
            exact hpart run part s' hon hp hs'
          | broken error => trivial

/-- Another go at the other parts of a run that has grown. -/
theorem tail_kept (hC : C.Lawful) (h : C.KeptBy m depth apply) {cursor : Position} {t : Tree}
    (hm : m.Behind cursor.location) (hhas : job.grammar.Has run.expr) (hmode : job.grammar.Mode run.setting.skipping)
    (hg : C.Grown run cursor t) :
    (C.stance m depth).Yields True (run.tail job apply cursor) fun a =>
      ∀ more, a = .settled (.matched more) → ∃ further,
        (Run.new run.parts run.flatten (run.setting.moved cursor) 1).Continues further ∧ C.Going 1 further ∧
        further.parts[further.done]? = none ∧ further.conclude job = .matched more := by
  let further := Run.new run.parts run.flatten (run.setting.moved cursor) 1
  have hon : C.On 1 further further := .tail hC hhas hmode hg
  have hm' : m.Behind further.setting.location := hm
  refine bind (drive_kept (R := fun _ => True) hC h hm' (fun _ _ _ _ _ _ => trivial) (fun _ _ _ _ _ _ => trivial)
    _ hon) fun r hr => ?_
  cases r with
  | ok last =>
    exact pure fun more he => ⟨last, hr.1.continues, hr.1.going, hr.2, Attempt.settled.inj he⟩
  | error attempt =>
    refine pure fun more he => ?_
    subst he
    obtain ⟨f, hf, -⟩ := hr
    cases hf

/-- A run that was set aside grows. -/
theorem extend_kept (hC : C.Lawful) (h : C.KeptBy m depth apply) (hhas : job.grammar.Has run.expr)
    (hmode : job.grammar.Mode run.setting.skipping) : ∀ {fuel : Nat} {cursor : Position} {t : Tree},
      m.Behind cursor.location → C.Grown run cursor t →
      (C.stance m depth).Yields True (run.extend job apply fuel cursor t) (C.Comes R run.expr run.setting.position)
  | 0, _, _, _, hg => pure (hC.chains.grown hhas hg)
  | fuel + 1, cursor, t, hm, hg => by
    have hstay : C.Comes R run.expr run.setting.position (.settled (.matched t)) := hC.chains.grown hhas hg
    unfold Run.extend
    refine .ite (fun _ => pure hstay) fun _ => ?_
    refine bind (tail_kept hC h hm hhas hmode hg) fun a ha => ?_
    split
    · next more =>
      refine .ite (fun _ => pure hstay) fun hlt => ?_
      obtain ⟨further, hcontinues, hgoing, hdone, hconclude⟩ := ha more rfl
      have hgrown := hC.chains.grow hhas hg hcontinues hgoing hdone hconclude (Location.not_le.1 hlt)
      refine bind (Q := fun _ => True) (.count (fun _ => Nat.le_refl _) fun _ => Nat.le_refl _) fun _ _ => ?_
      refine bind (Q := fun _ => True) .note fun _ _ => ?_
      exact extend_kept hC h hhas hmode (hm.mono (Position.le_moveTo _ _)) hgrown
    · exact pure trivial
    · exact pure hstay

/-- A run is carried to its end. -/
theorem finish_kept (hC : C.Lawful) (h : C.KeptBy m depth apply) (hm : m.Behind origin.setting.location)
    (hself : ∀ run r, C.On 0 origin run → run.parts[run.done]? = some (.rule r) → run.done = 0 →
      m = some (r, run.collected.cursor.location) →
      R (some [.sequence { run with growing := true, needsSeed := true }]))
    (hpart : ∀ run part s, C.On 0 origin run → run.parts[run.done]? = some part →
      C.Signal m part run.collected.cursor s → R (s.map (· ++ [.sequence run]))) (hon : C.On 0 origin run) :
    (C.stance m depth).Yields True (run.finish job apply) (C.Comes R origin.expr origin.setting.position) := by
  refine bind (drive_kept hC h hm hself hpart _ hon) fun r hr => ?_
  cases r with
  | ok last =>
    obtain ⟨hlast, hdone⟩ := hr
    rw [← hlast.continues.expr, ← hlast.continues.setting]
    refine .ite (fun hg => ?_) fun _ => pure (hC.chains.concluded hlast.has hdone hlast.going)
    have hm' : m.Behind last.collected.cursor.location := by
      refine Mark.Behind.mono ?_ hlast.forward
      rw [hlast.continues.setting]
      exact hm
    exact extend_kept hC h hlast.has hlast.mode hm' (hC.chains.complete hlast.has hdone hg (hlast.seeded hg) hlast.going)
  | error attempt => exact pure (hr.comes hC)

theorem goOn_kept (hC : C.Lawful) (h : C.KeptBy m depth apply) (hm : m.Behind run.setting.location)
    (hon : C.On 0 run run) (hp : run.parts[run.done]? = some part)
    (ha : C.Comes (fun _ => True) part run.collected.cursor a) :
    (C.stance m depth).Yields True (run.goOn job apply a) (C.Comes (fun _ => True) run.expr run.setting.position) := by
  refine bind (absorb_kept hC h hm hon hp ha) fun r hr => ?_
  cases r with
  | ok further => exact finish_kept hC h hm (fun _ _ _ _ _ _ => trivial) (fun _ _ _ _ _ _ => trivial) hr
  | error attempt =>
    refine pure ?_
    cases attempt with
    | settled v => exact Stops.comes (R := fun _ => True) hC hr
    | recursion | broken => trivial

end

/-! ## Resuming -/

section

variable {m : Mark} {depth : Nat} {apply : Applier} {e e' : Expr} {p p' o : Position} {a : Attempt}

/-- A verdict may be remembered where it is fine. -/
theorem Remembers.insert {q : Question} {v : Verdict} {mem : Memory} (hC : C.Lawful) (hhas : job.grammar.Has e) (he : q.expr = e)
    (hl : q.location = p.location) (hat : C.At p) (hv : C.Fine e p v) (hmem : Memory.Keeps C.Remembers mem) :
    Memory.Keeps C.Remembers (mem.insert q v) := by
  refine hmem.insert ⟨he ▸ hhas, fun p' hat' hl' => ?_⟩
  rw [he]
  exact hC.plain.moved hat hat' (hl.symm.trans hl'.symm) hv

theorem remember_kept (hC : C.Lawful) {q : Question} (hhas : job.grammar.Has e) (he : q.expr = e) (hl : q.location = p.location)
    (hat : C.At p) (ha : C.Comes (fun _ => True) e p a) :
    (C.stance m depth).Yields True (Eval.remember job q a) (C.Comes (fun _ => True) e p) := by
  refine .remember (fun _ v mem hv hmem => ?_) fun _ => ?_
  · subst hv
    exact Remembers.insert hC hhas he hl hat ha hmem
  · unfold Attempt.awaiting
    split
    · trivial
    · exact ha

theorem wrapAttempt_comes {R : Option Suspension → Prop} (hC : C.Lawful) {name : String} {body : Expr}
    (hb : job.grammar.rule? name = some body) (ha : C.Comes R body p a) :
    C.Comes (fun s => ∃ s', R s' ∧ s = s'.map (· ++ [.wrapping name])) (.rule name) p (wrapAttempt job name a) := by
  cases a with
  | settled v =>
    cases v with
    | matched t =>
      unfold wrapAttempt
      simp only
      split
      · next ht => exact hC.plain.wrapped hb ha ht
      · trivial
    | silent | omitted | failed => exact hC.plain.passed hb (fun _ => nofun) ha
  | recursion suspension =>
    cases suspension with
    | none => exact ⟨none, ha, rfl⟩
    | some suspension => exact ⟨some suspension, ha, rfl⟩
  | broken error => trivial

/-- Whatever waits for a verdict comes to a verdict that is fine. -/
theorem resume_kept (hC : C.Lawful) (h : C.KeptBy m depth apply) (hm : m.Behind p'.location) {works : List Waiting}
    (hf : C.Feeds e p works e' p') (hhas : job.grammar.Has e) (hat : C.At p) (ha : C.Comes (fun _ => True) e p a) :
    (C.stance m depth).Yields True (Suspension.resume job apply works a) (C.Comes (fun _ => True) e' p') := by
  induction hf generalizing a with
  | done => exact pure ha
  | @sequence run part e p works hon hp hworks ih =>
    unfold Suspension.resume Waiting.resume
    simp only
    rw [Run.resume_of_ready hon.ready]
    refine bind (goOn_kept hC h (hm.mono hworks.le) hon hp ha) fun b hb => ?_
    split
    · exact pure trivial
    · exact ih hm hon.has hon.sits hb
  | @memory q e e' p p' works he hl _ ih =>
    unfold Suspension.resume Waiting.resume
    refine bind (remember_kept hC hhas he hl hat ha) fun b hb => ?_
    split
    · exact pure trivial
    · exact ih hm hhas hat hb
  | @wrapping name body e p p' works hr hb _ ih =>
    have hw := (wrapAttempt_comes hC hb ha).weaken
    unfold Suspension.resume Waiting.resume
    simp only [pure_bind]
    split
    · exact pure trivial
    · exact ih hm hr hat hw
  | choice hc hmem _ ih =>
    refine ih hm hc hat ?_
    cases a with
    | settled v => exact hC.plain.chosen hc hmem ha
    | recursion | broken => trivial

/-- A sequence that was set aside goes on with a seed for its first part. -/
theorem resumeAside_kept (hC : C.Lawful) (h : C.KeptBy m depth apply) {run : Run} {r : String} {seed : Tree}
    (hm : m.Behind run.setting.location) (hon : C.On 0 run run) (hp : run.parts[run.done]? = some (.rule r))
    (hd : run.done = 0) (hseed : ∀ t, (t = seed ∨ ∃ name, job.grammar.produce name seed = .ok t) →
      C.Fine (.rule r) run.collected.cursor (.matched t)) :
    (C.stance m depth).Yields True
      (({ run with growing := true, needsSeed := true } : Run).resume job apply (.settled (.matched seed)))
      (C.Comes (fun _ => True) run.expr run.setting.position) := by
  let aside : Run := { run with growing := true, needsSeed := false }
  have planted (t : Tree) (ht : t = seed ∨ ∃ name, job.grammar.produce name seed = .ok t) :
      (C.stance m depth).Yields True ((aside.next (aside.collect job.input t) none).finish job apply)
        (C.Comes (fun _ => True) run.expr run.setting.position) := by
    have hon' := hon.planted hC hp hd (hseed t ht)
    show (C.stance m depth).Yields True _ (C.Comes (fun _ => True) aside.expr aside.setting.position)
    exact finish_kept hC h hm (fun _ _ _ _ _ _ => trivial) (fun _ _ _ _ _ _ => trivial) hon'
  unfold Run.resume
  simp only [if_true]
  unfold Run.seeded
  simp only
  split
  · next name _ =>
    cases ht : job.grammar.produce name seed with
    | ok t => exact planted t (.inr ⟨name, ht⟩)
    | error error => exact pure trivial
  · exact planted seed (.inl rfl)

/-- What comes of a sequence that an alternative has set aside and that is resumed with the result of
a later alternative is fine for the choice. -/
theorem plantSeed_kept (hC : C.Lawful) (h : C.KeptBy m depth apply) (hm : m.Behind p.location)
    {alternatives before later : List Expr} {suspension : Suspension} {seed : Tree} {R : Option Suspension → Prop}
    (hc : job.grammar.Has (.choice alternatives)) (hat : C.At p) (halt : alternatives = before ++ e :: later)
    (he' : e' ∈ later) (hs : C.Signal m e p (some suspension)) (hseed : C.Fine e' p (.matched seed)) :
    (C.stance m depth).Yields True (plantSeed job apply suspension seed) (C.Comes R (.choice alternatives) p) := by
  obtain ⟨o, hawaits, hescapes⟩ := hs
  have hstands : C.Comes R (.choice alternatives) p (.settled (.matched seed)) :=
    hC.plain.chosen hc (by simp [halt, he']) hseed
  have hmem : e ∈ alternatives := by simp [halt]
  refine bind (Q := fun _ => True) .note fun _ _ => bind (Q := fun _ => True) .emit fun _ _ => ?_
  refine bind (Q := fun _ => True) (.count (fun _ => Nat.le_refl _) fun _ => Nat.le_refl _) fun _ _ => ?_
  refine bind (Q := C.Comes (fun _ => True) e p) ?_ fun a ha => ?_
  · cases hawaits with
    | @intro run r works _ _ hon hp hd hworks =>
      unfold Suspension.resume Waiting.resume
      have hfine (t : Tree) (ht : t = seed ∨ ∃ name, job.grammar.produce name seed = .ok t) :
          C.Fine (.rule r) run.collected.cursor (.matched t) :=
        hC.chains.planted hc halt he' hescapes hat (hon.at_cursor hC) hseed ht
      refine bind (resumeAside_kept hC h (hm.mono hworks.le) hon hp hd hfine) fun b hb => ?_
      split
      · exact pure trivial
      · exact resume_kept hC h hm hworks hon.has hon.sits hb
  · split
    · exact pure hstands
    · exact pure hstands
    · refine pure ?_
      cases a with
      | settled v => exact hC.plain.chosen hc hmem ha
      | recursion s => next hn => exact (hn s rfl).elim
      | broken error => trivial

end

end Contract

end Packrat

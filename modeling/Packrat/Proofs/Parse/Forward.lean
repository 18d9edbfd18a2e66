/-
Results lie where they were looked for, or behind. Unless matchers from outside claim places as they like, what a
verdict accounts for neither begins nor ends before the place where its expression was tried, whatever grammar it is
and whatever has been remembered or set aside. A seed that stems from another place cannot change that: a sequence
that is resumed with it still begins no earlier than it was tried, so what comes of suspended work lies behind the
place of the last sequence in it.
-/
import Packrat.Proofs.Grammar.Modes
import Packrat.Proofs.Memory.Keeping
import Packrat.Proofs.Parse.Collecting
import Packrat.Proofs.Session.Procedure

namespace Packrat

/-! ## Verdicts -/

/-- What the verdict accounts for begins and ends at the location or behind it. -/
def Verdict.From (l : Location) : Verdict → Prop
  | .matched t => l ≤ t.extent.start ∧ l ≤ t.extent.stop
  | .omitted span => l ≤ span.start ∧ l ≤ span.stop
  | .silent _ | .failed _ => True

theorem Location.origin_le (l : Location) : origin ≤ l := by
  rw [le_def]
  simp only [origin]
  omega

section

variable {l m : Location}

theorem Verdict.From.mono {v : Verdict} (h : v.From m) (hl : l ≤ m) : v.From l := by
  cases v with
  | matched t => exact ⟨Location.le_trans hl h.1, Location.le_trans hl h.2⟩
  | omitted span => exact ⟨Location.le_trans hl h.1, Location.le_trans hl h.2⟩
  | silent | failed => trivial

theorem Verdict.from_origin (v : Verdict) : v.From .origin := by
  cases v with
  | matched t => exact ⟨Location.origin_le _, Location.origin_le _⟩
  | omitted span => exact ⟨Location.origin_le _, Location.origin_le _⟩
  | silent | failed => trivial

theorem literal_from (text rest : List Char) (l : Location) : (literalVerdict text rest l).From l := by
  unfold literalVerdict
  split
  · next stop h =>
    obtain ⟨-, rfl⟩ := (readLiteral_eq_ok _ _ _ _ _).1 h
    exact ⟨Location.le_refl l, Scan.le_run (.start l) text⟩
  · trivial

theorem pattern_from (engine : Regex.Engine) (pattern : Pattern) (rest : List Char) (l : Location) :
    (patternVerdict engine pattern rest l).From l := by
  unfold patternVerdict
  split
  · exact ⟨Location.le_refl l, Scan.le_run (.start l) _⟩
  · trivial

/-! ## What is collected -/

/-- Nothing is collected before the location. -/
structure Accumulator.From (l : Location) (acc : Accumulator) : Prop where
  start : l ≤ acc.start.location
  stop : l ≤ acc.stop.location
  cursor : l ≤ acc.cursor.location

namespace Accumulator.From

variable {acc : Accumulator} {input : List Char}

theorem new (p : Position) : (Accumulator.new p).From p.location := ⟨Location.le_refl _, Location.le_refl _, Location.le_refl _⟩

theorem moveTo (h : acc.From l) (target : Location) : l ≤ (acc.cursor.moveTo input target).location :=
  Location.le_trans h.cursor (Position.le_moveTo _ _)

theorem pass (h : acc.From l) (stop : Location) : (acc.pass input stop).From l := by
  refine ⟨h.start, ?_, h.moveTo stop⟩
  show l ≤ Position.location (if _ then _ else _)
  split
  · exact h.moveTo stop
  · exact h.stop

/-- It does not matter which place the tree claims. -/
theorem add (h : acc.From l) (t : Tree) : (acc.add input t).From l := by
  have hpass := @pass l acc input h t.extent.stop
  refine ⟨?_, hpass.stop, hpass.cursor⟩
  show l ≤ Position.location (if _ then _ else _)
  split
  · exact h.start
  · exact h.moveTo t.extent.start

theorem skip (h : acc.From l) (stop : Location) : (acc.skip input stop).From l := by
  have hcursor := @moveTo l acc input h stop
  unfold Accumulator.skip
  simp only
  split
  · exact ⟨h.start, h.stop, hcursor⟩
  · exact ⟨hcursor, hcursor, hcursor⟩

theorem collect {run : Run} (h : run.collected.From l) (t : Tree) : (run.collect input t).From l := by
  refine Run.collect_induction h ?_ ?_
  · exact fun _ u _ hacc => hacc.add u
  · exact fun _ hacc => hacc.pass _

theorem tree (h : acc.From l) : (Verdict.matched (acc.tree input)).From l := by
  show l ≤ (acc.tree input).extent.start ∧ l ≤ (acc.tree input).extent.stop
  rw [extent_tree]
  exact ⟨h.start, h.stop⟩

end Accumulator.From

theorem Run.conclude_from {run : Run} {job : Job} (h : run.collected.From l) : (run.conclude job).From l := by
  rcases run.conclude_cases job with hc | ⟨why, -, -, hc⟩
  · rw [hc]
    exact h.tree
  · rw [hc]
    trivial

theorem Rounds.conclude_from {rounds : Rounds} {job : Job} {bounds : Bounds} {fallback : Option Tree}
    (h : rounds.collected.From l) : (rounds.conclude job bounds fallback l).From l := by
  unfold Rounds.conclude
  split
  · split
    · next t =>
      show l ≤ (t.movedTo (.empty l)).extent.start ∧ l ≤ (t.movedTo (.empty l)).extent.stop
      rw [Tree.extent_movedTo]
      exact ⟨Location.le_refl l, Location.le_refl l⟩
    · trivial
  · split
    · trivial
    · split
      · exact ⟨h.start, h.stop⟩
      · exact h.tree

end

/-! ## Work under way -/

/-- The parts of a run are those of the grammar, and it has collected nothing before the place where it is tried. -/
structure Run.Advancing (job : Job) (run : Run) : Prop where
  has : ∀ part ∈ run.parts, job.grammar.Has part
  mode : job.grammar.Mode run.setting.skipping
  collected : run.collected.From run.setting.location

theorem Run.Advancing.goes {job : Job} {run further : Run} (hrun : run.Advancing job) (hparts : further.parts = run.parts)
    (hsetting : further.setting = run.setting) (hcollected : further.collected.From run.setting.location) : further.Advancing job where
  has := hparts ▸ hrun.has
  mode := hsetting ▸ hrun.mode
  collected := hsetting ▸ hcollected

/-- Some work, given a verdict from a location on, comes to one from another location on. -/
inductive Conducts (job : Job) : Location → List Waiting → Location → Prop
  | done {l m : Location} : m ≤ l → Conducts job l [] m
  | sequence {l m : Location} {run : Run} {works : List Waiting} : run.Advancing job →
    Conducts job run.setting.location works m → Conducts job l (.sequence run :: works) m
  | memory {l m : Location} {q : Question} {works : List Waiting} : q.location ≤ l → Conducts job l works m →
    Conducts job l (.memory q :: works) m
  | wrapping {l m : Location} {rule : String} {works : List Waiting} : Conducts job l works m →
    Conducts job l (.wrapping rule :: works) m

namespace Conducts

variable {job : Job} {l m n : Location} {works others : List Waiting}

theorem mono (h : Conducts job l works m) (hl : l ≤ n) : Conducts job n works m := by
  induction h generalizing n with
  | done hm => exact .done (Location.le_trans hm hl)
  | sequence hrun h _ => exact .sequence hrun h
  | memory hq _ ih => exact .memory (Location.le_trans hq hl) (ih hl)
  | wrapping _ ih => exact .wrapping (ih hl)

theorem append (h : Conducts job l works m) (h' : Conducts job m others n) : Conducts job l (works ++ others) n := by
  induction h with
  | done hm => exact h'.mono hm
  | sequence hrun _ ih => exact .sequence hrun (ih h')
  | memory hq _ ih => exact .memory hq (ih h')
  | wrapping _ ih => exact .wrapping (ih h')

end Conducts

/-- What may come of an expression that is tried at the location. Whatever suspended work is given, it comes to a
verdict from there on. -/
def Attempt.From (job : Job) (l : Location) : Attempt → Prop
  | .settled v => v.From l
  | .recursion (some suspension) => ∀ given, Conducts job given suspension l
  | .recursion none | .broken _ => True

theorem Attempt.From.append {job : Job} {l m : Location} {suspension : Suspension} {works : List Waiting}
    (h : Attempt.From job l (.recursion (some suspension))) (hw : Conducts job l works m) :
    Attempt.From job m (.recursion (some (suspension ++ works))) := fun given => (h given).append hw

/-! ## Steps -/

/-- Remembered verdicts lie where their questions were asked, or behind. -/
def Session.Forward (s : Session) : Prop := s.memory.Keeps fun q v => v.From q.location

theorem Session.forward_start : Session.start.Forward := Memory.keeps_empty

/-- Taken in a session with forward verdicts, the step has a result with `Q` and leaves such a session. -/
def Eval.Heads {α : Type} (x : Eval α) (Q : α → Prop) : Prop := ∀ s : Session, s.Forward → Q (x.on s).1 ∧ (x.on s).2.Forward

namespace Eval.Heads

variable {α β : Type} {x : Eval α} {Q R : α → Prop}

theorem pure {a : α} (h : Q a) : Heads (Pure.pure a) Q := fun _ hs => ⟨h, hs⟩

theorem bind {f : α → Eval β} {R : β → Prop} (hx : Heads x Q) (hf : ∀ a, Q a → Heads (f a) R) : Heads (x >>= f) R := by
  intro s hs
  obtain ⟨ha, ht⟩ := hx s hs
  exact hf _ ha _ ht

theorem bind_get {f : Session → Eval α} (hf : ∀ s : Session, s.Forward → Heads (f s) Q) : Heads (get >>= f) Q :=
  fun s hs => hf s hs s hs

theorem post (hx : Heads x Q) (h : ∀ a, Q a → R a) : Heads x R := fun s hs => ⟨h _ (hx s hs).1, (hx s hs).2⟩

theorem ite {p : Prop} [Decidable p] {y : Eval α} (hx : p → Heads x Q) (hy : ¬ p → Heads y Q) :
    Heads (if p then x else y) Q := by
  split
  · next h => exact hx h
  · next h => exact hy h

/-- Nothing changes in memory. -/
theorem books {k : Eval Unit} (hk : ∀ s : Session, (k.on s).2.memory = s.memory) : Heads k fun _ => True := by
  intro s hs
  refine ⟨trivial, ?_⟩
  unfold Session.Forward
  rw [hk s]
  exact hs

variable {job : Job} {l : Location}

theorem note {entry : Note} : Heads (Eval.note entry) fun _ => True := books fun _ => rfl

theorem count {update : Counts → Counts} : Heads (Eval.count job update) fun _ => True := by
  refine books fun s => ?_
  rw [on_count]
  split <;> rfl

theorem emit {event : Event} : Heads (Eval.emit job event) fun _ => True := by
  refine books fun s => ?_
  rw [on_emit]
  split <;> rfl

theorem reportReentry {rule : String} {location : Location} : Heads (Eval.reportReentry job rule location) fun _ => True :=
  bind note fun _ _ => bind count fun _ _ => emit

theorem lookUp {q : Question} : Heads (Eval.lookUp job q) fun found => ∀ v, found = some v → v.From q.location := by
  unfold Eval.lookUp
  refine ite (fun _ => bind_get fun s hs => ?_) fun _ => pure nofun
  cases hf : s.memory.find? q with
  | some v =>
    obtain ⟨q', hv, hl, -, -⟩ := Memory.Keeps.find hs hf
    refine bind count fun _ _ => bind emit fun _ _ => pure ?_
    rintro _ ⟨⟩
    rwa [← hl]
  | none => exact bind count fun _ _ => pure nofun

theorem remember {q : Question} {a : Attempt} (ha : a.From job l) (hq : q.location ≤ l) :
    Heads (Eval.remember job q a) (·.From job l) := by
  unfold Eval.remember
  refine ite (fun _ => ?_) fun _ => pure ha
  cases a with
  | settled v => exact bind (Q := fun _ => True) (fun s hs => ⟨trivial, hs.insert (ha.mono hq)⟩) fun _ _ => pure ha
  | recursion suspension =>
    cases suspension with
    | none => exact pure trivial
    -- the work set aside now has to remember the verdict as well
    | some suspension => exact pure (ha.append (.memory hq (.done (Location.le_refl l))))
  | broken error => exact pure trivial

theorem nested {rule : Option String} {location : Location} {work : Eval Attempt} {Q : Attempt → Prop} (h : Heads work Q) :
    Heads (Eval.nested job rule location work) Q :=
  bind_get fun _ _ => bind_get fun _ _ => bind (Q := fun _ => True) (fun _ hs => ⟨trivial, hs⟩) fun _ _ =>
    bind count fun _ _ => bind h fun _ ha => bind (Q := fun _ => True) (fun _ hs => ⟨trivial, hs⟩) fun _ _ => pure ha

theorem remembering {work : Applier} {e : Expr} {setting : Setting} (h : Heads (work e setting) (·.From job setting.location)) :
    Heads (Packrat.remembering job work e setting) (·.From job setting.location) := by
  refine bind lookUp fun found hfound => ?_
  cases found with
  | some v => exact pure (hfound v rfl)
  | none =>
    refine bind_get fun s _ => ite (fun _ => bind reportReentry fun _ _ => pure trivial) fun _ => ?_
    exact bind (nested h) fun a ha => remember ha (Location.le_refl _)

end Eval.Heads

/-- Whatever of the grammar is tried lies where it is tried, or behind. -/
def Applier.Forward (apply : Applier) (job : Job) : Prop :=
  ∀ e setting, job.grammar.Has e → job.grammar.Mode setting.skipping → Eval.Heads (apply e setting) (·.From job setting.location)

namespace Eval.Heads

variable {job : Job} {apply : Applier} {setting : Setting} {run : Run} {l : Location} (h : apply.Forward job)
include h

/-! ## Sequences -/

/-- Skipping does nothing but skip. -/
theorem skipBetween {acc : Accumulator} (hmode : job.grammar.Mode setting.skipping) :
    Heads (Packrat.skipBetween job apply setting acc) fun skipped =>
      ∀ further, skipped = .ok (some further) → ∃ stop, further = acc.skip job.input stop := by
  unfold Packrat.skipBetween
  cases hskipper : job.skipper? setting.skipping with
  | none => exact pure nofun
  | some skipper =>
    refine bind (h skipper _ (hmode.has hskipper) hmode) fun a _ => ?_
    have hskips : ∀ further, (Except.ok (a.skipStop?.bind (acc.skip? job.input)) : Except GrammarError _) = .ok (some further) →
        ∃ stop, further = acc.skip job.input stop := by
      intro further hf
      obtain ⟨stop, -, hstop⟩ := Option.bind_eq_some_iff.1 (Except.ok.inj hf)
      unfold Accumulator.skip? at hstop
      split at hstop
      · cases hstop
      · cases hstop
        exact ⟨stop, rfl⟩
    cases a with
    | settled | recursion => exact pure hskips
    | broken error => exact pure nofun

/-- A run goes on, or something comes of the whole of it. Whatever place the result of a part claims, the run is
tried where it is. -/
theorem absorb (hrun : run.Advancing job) {a : Attempt} (ha : ∃ l, a.From job l) :
    Heads (run.absorb job apply a) fun
      | .ok further => further.Advancing job ∧ further.setting = run.setting
      | .error came => came.From job run.setting.location := by
  obtain ⟨l, ha⟩ := ha
  have hnext {acc : Accumulator} {silence : Option Silence} (hacc : acc.From run.setting.location) :
      (run.next acc silence).Advancing job ∧ (run.next acc silence).setting = run.setting :=
    ⟨hrun.goes rfl rfl hacc, rfl⟩
  unfold Run.absorb
  rcases a with (t | why | span | failure) | (_ | suspension) | error
  -- a seed may lie before the run, but then the cursor stays where it is
  · exact pure (hnext (hrun.collected.collect t))
  · exact pure (hnext hrun.collected)
  · exact pure (hnext (hrun.collected.pass _))
  · refine bind (skipBetween h hrun.mode) fun skipped hskipped => ?_
    rcases skipped with error | (_ | further)
    · exact pure trivial
    · exact pure trivial
    · obtain ⟨stop, rfl⟩ := hskipped further rfl
      exact pure ⟨hrun.goes rfl rfl (hrun.collected.skip stop), rfl⟩
  · exact pure trivial
  · exact pure (ha.append (.sequence hrun (.done (Location.le_refl _))))
  · exact pure trivial

theorem drive : ∀ {fuel : Nat} {run : Run}, run.Advancing job → Heads (run.drive job apply fuel) fun
    | .ok last => last.Advancing job ∧ last.setting = run.setting
    | .error came => came.From job run.setting.location
  | 0, _, _ => pure trivial
  | fuel + 1, run, hrun => by
    unfold Run.drive
    cases hp : run.parts[run.done]? with
    | none => exact pure ⟨hrun, rfl⟩
    | some part =>
      refine bind_get fun s _ => ite (fun _ => bind reportReentry fun _ _ => pure fun given => ?_) fun _ => ?_
      · exact .sequence (hrun.goes rfl rfl hrun.collected) (.done (Location.le_refl _))
      · refine bind (h part run.here (hrun.has part (List.mem_of_getElem? hp)) hrun.mode) fun a ha => ?_
        refine bind (absorb h hrun ⟨_, ha⟩) fun r hr => ?_
        cases r with
        | ok further =>
          obtain ⟨hfurther, hsetting⟩ := hr
          rw [← hsetting]
          exact drive hfurther
        | error came => exact pure hr

theorem extend (hrun : run.Advancing job) : ∀ {fuel : Nat} {cursor : Position} {t : Tree},
    run.setting.location ≤ cursor.location → (Verdict.matched t).From run.setting.location →
      Heads (run.extend job apply fuel cursor t) (·.From job run.setting.location)
  | 0, _, _, _, ht => pure ht
  | fuel + 1, cursor, t, hle, ht => by
    have hothers : (Run.new run.parts run.flatten (run.setting.moved cursor) 1).Advancing job := ⟨hrun.has, hrun.mode, .new cursor⟩
    have htail : Heads (run.tail job apply cursor) fun _ => True := by
      refine bind (drive h hothers) fun r _ => ?_
      cases r <;> exact pure trivial
    unfold Run.extend
    refine ite (fun _ => pure ht) fun _ => bind htail fun a _ => ?_
    rcases a with (more | why | span | failure) | suspension | error
    · refine ite (fun _ => pure ht) fun _ => bind count fun _ _ => bind note fun _ _ => ?_
      -- the pair begins where the run does and ends at the new cursor
      have hfurther : run.setting.location ≤ (cursor.moveTo job.input more.extent.stop).location :=
        Location.le_trans hle (Position.le_moveTo _ _)
      exact extend hrun hfurther ⟨hrun.collected.start, hfurther⟩
    · exact pure ht
    · exact pure ht
    · exact pure ht
    · exact pure ht
    · exact pure trivial

theorem finish (hrun : run.Advancing job) : Heads (run.finish job apply) (·.From job run.setting.location) := by
  refine bind (drive h hrun) fun r hr => ?_
  cases r with
  | ok last =>
    obtain ⟨hlast, hsetting⟩ := hr
    rw [← hsetting]
    exact ite (fun _ => extend h hlast hlast.collected.cursor hlast.collected.tree) fun _ =>
      pure (Run.conclude_from hlast.collected)
  | error came => exact pure hr

/-! ## Suspended work -/

omit h in
theorem produced {rule : String} {t t' : Tree} (ht : job.grammar.produce rule t = .ok t') (hv : (Verdict.matched t).From l) :
    (Verdict.matched t').From l := by
  have hextent : t'.extent = t.extent := by
    rw [Tree.extent, Grammar.place_produce ht]
    rfl
  show l ≤ t'.extent.start ∧ l ≤ t'.extent.stop
  rw [hextent]
  exact hv

omit h in
theorem wrapAttempt (rule : String) {a : Attempt} (ha : a.From job l) : (Packrat.wrapAttempt job rule a).From job l := by
  unfold Packrat.wrapAttempt
  rcases a with (t | why | span | failure) | (_ | suspension) | error
  · simp only
    split
    · next t' ht => exact produced ht ha
    · trivial
  · exact ha
  · exact ha
  · trivial
  · trivial
  · exact ha.append (.wrapping (.done (Location.le_refl l)))
  · trivial

omit h in
theorem seeded {a : Attempt} (ha : a.From job l) : (run.seeded job a).From job l := by
  unfold Run.seeded
  rcases a with (t | why | span | failure) | suspension | error
  · simp only
    split
    · split
      · next t' ht => exact produced ht ha
      · trivial
    · exact ha
  all_goals exact ha

theorem resume : ∀ {works : Suspension} {a : Attempt} {l m : Location}, Conducts job l works m → a.From job l →
    Heads (Suspension.resume job apply works a) (·.From job m)
  | [], a, l, m, hworks, ha => by
    cases hworks with
    | done hle =>
      refine pure ?_
      rcases a with v | (_ | suspension) | error
      · exact ha.mono hle
      · trivial
      · exact fun given => by simpa using (ha given).append (.done hle)
      · trivial
  | work :: others, a, l, m, hworks, ha => by
    -- what the work comes to lies behind a place from which the others lead on
    have hwork : ∃ n, Heads (work.resume job apply a) (·.From job n) ∧ Conducts job n others m := by
      cases hworks with
      | @sequence _ _ run _ hrun hothers =>
        refine ⟨run.setting.location, ?_, hothers⟩
        have hready : ({ run with needsSeed := false } : Run).Advancing job := hrun.goes rfl rfl hrun.collected
        refine bind (absorb h hready ⟨l, ?_⟩) fun r hr => ?_
        · split
          · exact seeded ha
          · exact ha
        · cases r with
          | ok further =>
            obtain ⟨hfurther, hsetting⟩ := hr
            rw [show run.setting = further.setting from hsetting.symm]
            exact finish h hfurther
          | error came => exact pure hr
      | memory hq hothers => exact ⟨l, remember ha hq, hothers⟩
      | @wrapping _ _ rule _ hothers => exact ⟨l, pure (wrapAttempt rule ha), hothers⟩
    obtain ⟨n, hresumed, hothers⟩ := hwork
    unfold Suspension.resume
    refine bind hresumed fun b hb => ?_
    rcases b with v | (_ | suspension) | error
    · exact resume hothers hb
    · exact resume hothers hb
    · exact pure (hb.append hothers)
    · exact resume hothers hb

theorem plantSeed {suspension : Suspension} {seed : Tree} (hworks : ∀ given, Conducts job given suspension l)
    (hseed : (Verdict.matched seed).From l) : Heads (Packrat.plantSeed job apply suspension seed) (·.From job l) := by
  refine bind note fun _ _ => bind emit fun _ _ => bind count fun _ _ => ?_
  -- the work leads on from any place, so it need not be known where the seed lies
  refine bind (resume h (hworks .origin) (Verdict.from_origin (.matched seed))) fun a ha => ?_
  rcases a with (t | why | span | failure) | suspension | error
  · exact pure ha
  · exact pure ha
  · exact pure ha
  · exact pure hseed
  · exact pure hseed
  · exact pure trivial

/-! ## Expressions -/

omit h in
theorem exhausted {tried : Tried} (hs : ∀ suspension, tried.recursion = some suspension → Attempt.From job l (.recursion suspension))
    (rest : List Char) (location : Location) : (tried.exhausted rest location).From job l := by
  unfold Tried.exhausted
  split
  · trivial
  · next suspension _ hrecursion => exact hs suspension hrecursion
  · trivial

theorem tryChoice (hmode : job.grammar.Mode setting.skipping) : ∀ {alternatives : List Expr} {tried : Tried},
    (∀ e ∈ alternatives, job.grammar.Has e) →
    (∀ suspension, tried.recursion = some suspension → Attempt.From job setting.location (.recursion suspension)) →
      Heads (Packrat.tryChoice job apply setting alternatives tried) (·.From job setting.location)
  | [], _, _, hs => pure (exhausted hs _ _)
  | e :: others, tried, hhas, hs => by
    have hothers : ∀ e ∈ others, job.grammar.Has e := fun e he => hhas e (List.mem_cons_of_mem _ he)
    unfold Packrat.tryChoice
    refine bind (h e setting (hhas e List.mem_cons_self) hmode) fun a ha => ?_
    rcases a with (t | why | span | failure) | suspension | error
    · simp only
      split
      · next suspension hsuspension => exact plantSeed h (hs _ hsuspension) ha
      · exact pure ha
    · exact pure ha
    · exact pure ha
    · refine bind emit fun _ _ => bind count fun _ _ => tryChoice hmode hothers fun suspension hsuspension => hs suspension ?_
      unfold Tried.failed at hsuspension
      split at hsuspension <;> exact hsuspension
    · refine tryChoice hmode hothers ?_
      rintro _ ⟨⟩
      exact ha
    · exact pure trivial

theorem rounds (hmode : job.grammar.Mode setting.skipping) {body : Expr} (hbody : job.grammar.Has body) {bounds : Bounds} :
    ∀ {fuel : Nat} {rounds : Rounds}, rounds.collected.From setting.location →
      Heads (rounds.drive job apply body bounds setting fuel) fun
        | .ok last => last.collected.From setting.location
        | .error came => came.From job setting.location
  | 0, _, hacc => pure hacc
  | fuel + 1, r, hacc => by
    unfold Rounds.drive
    refine ite (fun _ => pure hacc) fun _ => bind (h body _ hbody hmode) fun a _ => ?_
    rcases a with (t | (_ | _ | _) | span | failure) | suspension | error
    · exact ite (fun _ => pure (hacc.add t)) fun _ => rounds hmode hbody (hacc.add t)
    · exact pure hacc
    · exact pure trivial
    · exact pure trivial
    · exact ite (fun _ => pure hacc) fun _ => rounds hmode hbody (hacc.pass _)
    · refine bind (skipBetween h hmode) fun skipped hskipped => ?_
      rcases skipped with error | (_ | further)
      · exact pure trivial
      · exact pure hacc
      · obtain ⟨stop, rfl⟩ := hskipped further rfl
        exact rounds hmode hbody (hacc.skip stop)
    · exact pure trivial
    · exact pure trivial

omit h in
theorem omission {a : Attempt} (ha : a.From job setting.location) : (omissionAttempt job setting a).From job setting.location := by
  rcases a with (t | (_ | _ | _) | span | failure) | suspension | error
  · exact ⟨Location.le_refl _, Position.le_moveTo _ _⟩
  · exact ⟨Location.le_refl _, Location.le_refl _⟩
  · exact ha
  · exact ha
  · exact ha
  · trivial
  · trivial
  · trivial

theorem evaluate (hc : ∀ key, ¬ job.grammar.Has (.external key)) {e : Expr} (he : job.grammar.Has e)
    (hmode : job.grammar.Mode setting.skipping) : Heads (Packrat.evaluate job apply e setting) (·.From job setting.location) := by
  have hparts : ∀ part ∈ e.parts, job.grammar.Has part := fun part hp => he.part hp
  cases e with
  | literal text => exact pure (literal_from text _ _)
  | pattern p => exact pure (pattern_from _ p _ _)
  | external key => exact absurd he (hc key)
  | rule name =>
    show Heads (tryRule job apply name setting) _
    unfold tryRule
    cases hbody : job.grammar.rule? name with
    | none => exact pure trivial
    | some body =>
      refine bind emit fun _ _ => bind count fun _ _ => ?_
      refine bind (h body _ (.body hbody) (hmode.skippingIn name)) fun a ha => ?_
      exact bind emit fun _ _ => pure (wrapAttempt name ha)
  | sequence parts | merge parts => exact finish h ⟨hparts, hmode, .new setting.position⟩
  | choice alternatives => exact tryChoice h hmode hparts nofun
  | repetition body bounds fallback =>
    refine bind (rounds h hmode (hparts body List.mem_cons_self) (.new setting.position)) fun r hr => ?_
    cases r with
    | ok last => exact pure (Rounds.conclude_from hr)
    | error came => exact pure hr
  -- what is looked for ahead is not accounted for
  | ahead body =>
    refine bind (h body setting (hparts body List.mem_cons_self) hmode) fun a _ => pure ?_
    cases a with
    | settled v =>
      unfold aheadAttempt
      simp only
      split <;> trivial
    | recursion | broken => trivial
  | notAhead body =>
    refine bind (h body setting (hparts body List.mem_cons_self) hmode) fun a _ => pure ?_
    cases a with
    | settled v =>
      unfold notAheadAttempt
      simp only
      split <;> trivial
    | recursion | broken => trivial
  | omission body => exact bind (h body setting (hparts body List.mem_cons_self) hmode) fun a ha => pure (omission ha)

end Eval.Heads

/-- Without matchers from outside, whatever is tried lies where it is tried, or behind. -/
theorem applyWithin_forward {job : Job} (hc : ∀ key, ¬ job.grammar.Has (.external key)) :
    ∀ levels : Nat, (applyWithin job levels).Forward job
  | 0 => fun _ _ _ _ => .pure trivial
  | levels + 1 => fun _ _ he hmode => .remembering (.evaluate (applyWithin_forward hc levels) hc he hmode)

end Packrat

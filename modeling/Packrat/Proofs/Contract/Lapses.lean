/-
Repetitions that need not match and do not. Their fallback stands for them, put where they were tried, so
a sequence stays where it is. A merge takes the items of the fallback, which stay where they were made,
and moves on with those that end ahead. What is remembered of a repetition came of an equal one, whose
fallback may have its items elsewhere.
-/
import Packrat.Parse.Matcher
import Packrat.Proofs.Contract.Progress
import Packrat.Proofs.Memory.Origins

namespace Packrat

variable {job : Job} {input : List Char}

/-! ## Staying in place -/

theorem Position.moveTo_eq_self {p : Position} {target : Location} : p.moveTo input target = p ↔ target ≤ p.location := by
  refine ⟨fun h => ?_, moveTo_of_le⟩
  have hle := (Location.le_further p.location target).2
  rwa [← @location_moveTo input, h] at hle

namespace Accumulator

theorem le_cursor_foldl_add (items : List Tree) (acc : Accumulator) :
    acc.cursor.location ≤ (items.foldl (add input) acc).cursor.location :=
  foldl_add_induction (P := fun further => acc.cursor.location ≤ further.cursor.location) (Location.le_refl _)
    fun _ _ _ h => Location.le_trans h (Position.le_moveTo _ _)

/-- Collecting trees moves the cursor unless all of them end at or before it. -/
theorem cursor_foldl_add_eq_iff : ∀ {items : List Tree} {acc : Accumulator},
    (items.foldl (add input) acc).cursor = acc.cursor ↔ ∀ t ∈ items, t.extent.stop ≤ acc.cursor.location
  | [], _ => by simp
  | t :: items, acc => by
    rw [List.foldl_cons, List.forall_mem_cons, ← @Position.moveTo_eq_self input, ← cursor_add]
    constructor
    · intro h
      -- what comes later does not take the cursor back
      have hback : Location.further acc.cursor.location t.extent.stop ≤ acc.cursor.location := by
        rw [← @Position.location_moveTo input, ← cursor_add, ← h]
        exact le_cursor_foldl_add items _
      have hfirst : (acc.add input t).cursor = acc.cursor :=
        Position.moveTo_of_le (Location.le_trans (Location.le_further _ _).2 hback)
      refine ⟨hfirst, ?_⟩
      rw [← hfirst] at h ⊢
      exact cursor_foldl_add_eq_iff.1 h
    · rintro ⟨hfirst, hothers⟩
      rw [cursor_foldl_add_eq_iff.2, hfirst]
      rwa [hfirst]

end Accumulator

/-- A merge would collect nothing from the tree that ends behind the location. -/
def Tree.StaysBehind (t : Tree) (location : Location) : Prop :=
  ∀ items, t.items? = some items → ∀ item ∈ items, item.extent.stop ≤ location

theorem Tree.staysBehind_of_items?_eq_none {t : Tree} {location : Location} (h : t.items? = none) : t.StaysBehind location :=
  fun _ hi => nomatch h.symm.trans hi

/-- A run that takes a tree which was put at its cursor stays there, unless it takes the items of the tree and one
of them ends ahead. -/
theorem Run.cursor_collect_movedTo {run : Run} {t : Tree} :
    (run.collect input (t.movedTo (.empty run.here.location))).cursor = run.collected.cursor ↔
      (run.flatten = true → t.StaysBehind run.here.location) := by
  have hput {u : Tree} (hu : u.extent = .empty run.here.location) : (run.collected.add input u).cursor = run.collected.cursor :=
    Position.moveTo_of_le (hu ▸ Location.le_refl _)
  cases hflatten : run.flatten with
  | false =>
    simp only [collect, hflatten, Bool.false_eq_true, false_implies, iff_true]
    exact hput (Tree.extent_movedTo _ _)
  | true =>
    simp only [collect, hflatten, true_implies]
    cases t with
    | list place items =>
      have hitems : Tree.StaysBehind (.list place items) run.here.location ↔
          ∀ item ∈ items, item.extent.stop ≤ run.collected.cursor.location := by
        simp [Tree.StaysBehind, Tree.items?, here, Setting.location, Setting.moved]
      rw [hitems, ← @Accumulator.cursor_foldl_add_eq_iff input]
      show ((items.foldl (.add input) run.collected).cursor.moveTo input run.here.location = _) ↔ _
      have hstays : run.here.location ≤ (items.foldl (.add input) run.collected).cursor.location :=
        Accumulator.le_cursor_foldl_add items run.collected
      rw [Position.moveTo_of_le hstays]
    | text | found | node => exact iff_of_true (hput rfl) (Tree.staysBehind_of_items?_eq_none rfl)

/-! ## What stands for a repetition -/

/-- No round matched, so the fallback is put where the repetition began. -/
theorem Rounds.conclude_of_lapse {rounds : Rounds} {max : Option Nat} {stood : Tree} {location : Location}
    (h : rounds.matched = 0) :
    rounds.conclude job ⟨0, max⟩ (some stood) location = .matched (stood.movedTo (.empty location)) := by
  unfold conclude
  rw [if_pos ⟨h, rfl⟩]

/-- A verdict on a repetition is a failure, or the rounds signalled it, or it is what some rounds of an equal repetition
of the grammar come to in that place. -/
def Job.Tallied (job : Job) (e : Expr) (p : Position) (v : Verdict) : Prop :=
  ∀ body bounds fallback, e = .repetition body bounds fallback → (∃ failure, v = .failed failure) ∨ (∃ why, v = .silent why) ∨
    ∃ body' stood rounds, job.grammar.Has (.repetition body' bounds stood) ∧ e.same (.repetition body' bounds stood) = true ∧
      v = Rounds.conclude job bounds stood p.location rounds

/-- What a verdict on a repetition stands for. -/
def Job.tally (job : Job) : Contract job where
  At _ := True
  Ends _ := True
  Fine := job.Tallied
  Going _ _ := True
  Grown _ _ _ := True
  Turning _ _ _ _ := True

theorem Job.Tallied.same {e e' : Expr} {p : Position} {v : Verdict} (h : e.same e' = true) (hv : job.Tallied e' p v) :
    job.Tallied e p v := by
  rintro body bounds fallback rfl
  have hcontent := Expr.same_iff.1 h
  cases e' with
  | repetition body' bounds' fallback' =>
    obtain rfl : bounds = bounds' := (Expr.repetition.inj hcontent).2.1
    rcases hv body' bounds fallback' rfl with hfailed | hsilent | ⟨body'', stood, rounds, hhas, hsame, hrounds⟩
    · exact .inl hfailed
    · exact .inr (.inl hsilent)
    · exact .inr (.inr ⟨body'', stood, rounds, hhas, Expr.same_iff.2 (hcontent.trans (Expr.same_iff.1 hsame)), hrounds⟩)
  | _ => cases hcontent

theorem Job.tally_plain : job.tally.Plain where
  ends _ := trivial
  failed := ⟨fun _ => trivial, fun _ _ _ _ _ => .inl ⟨_, rfl⟩⟩
  same _ _ h hv := hv.same h
  moved _ _ hl hv := by
    intro body bounds fallback he
    rw [← hl]
    exact hv body bounds fallback he
  literal _ _ := nofun
  pattern _ _ := nofun
  external _ _ := nofun
  wrapped _ _ _ := nofun
  passed _ _ _ := nofun
  chosen _ _ _ := nofun
  ahead _ := nofun
  notAhead _ := nofun
  omission _ _ _ _ := nofun

theorem Run.tallied_expr {run : Run} {p : Position} {v : Verdict} : job.Tallied run.expr p v := by
  intro body bounds fallback he
  unfold Run.expr at he
  split at he <;> cases he

theorem Job.tally_lawful : job.tally.Lawful where
  plain := job.tally_plain
  chains := {
    new := fun _ => trivial
    cursor := fun _ => trivial
    matched := fun _ _ _ _ => trivial
    omitted := fun _ _ _ _ => trivial
    silent := fun _ _ _ _ _ => trivial
    skipped := fun _ _ => trivial
    concluded := fun _ _ _ => Run.tallied_expr
    aside := fun _ _ => trivial
    planted := fun _ _ _ _ _ _ _ _ => nofun
    complete := fun _ _ _ _ _ => trivial
    tail := fun _ => trivial
    grow := fun _ _ _ _ _ _ _ => trivial
    grown := fun _ _ => Run.tallied_expr }
  turns := {
    new := fun _ => trivial
    cursor := fun _ => trivial
    matched := fun _ _ _ => trivial
    omitted := fun _ _ _ => trivial
    skipped := fun _ _ => trivial
    signalled := fun _ _ _ _ _ _ _ _ _ => .inr (.inl ⟨_, rfl⟩)
    concluded := fun {body bounds fallback p rounds} hhas _ _ => by
      rintro _ _ _ ⟨⟩
      exact .inr (.inr ⟨body, fallback, rounds, hhas, Expr.same_self _, rfl⟩) }

/-! ## Applications -/

/-- A repetition that comes back to the rule around it is not set aside. -/
theorem Rounds.drive_ne_recursion {apply : Applier} {body : Expr} {bounds : Bounds} {setting : Setting} {suspension : Suspension}
    {fuel : Nat} {rounds : Rounds} {s : Session} :
    ((rounds.drive job apply body bounds setting fuel).on s).1 ≠ .error (.recursion (some suspension)) := by
  induction fuel generalizing rounds s with
  | zero => simp [drive]
  | succ fuel ih =>
    unfold drive
    split
    · simp
    rw [Eval.on_bind]
    split
    · split
      · simp
      · exact ih
    · split
      · simp
      · exact ih
    · simp
    · simp
    · rw [Eval.on_bind]
      split
      · exact ih
      · simp
      · simp
    · simp
    · simp

/-- The rounds of a repetition where a call of it is worked out. -/
def Call.rounds (call : Call) (job : Job) (levels : Nat) (body : Expr) (bounds : Bounds) : Except Attempt Rounds × Session :=
  (Rounds.drive job (applyWithin job levels) body bounds call.setting (job.remaining call.setting.position + job.slack + 1)
    ⟨.new call.setting.position, 0⟩).on (call.within job)

/-- What comes of a repetition whose rounds end like that. -/
def Rounds.attempt (job : Job) (bounds : Bounds) (fallback : Option Tree) (location : Location) : Except Attempt Rounds → Attempt
  | .ok rounds => .settled (rounds.conclude job bounds fallback location)
  | .error attempt => attempt

section

variable {root : Expr} {levels : Nat} {call : Call} {body : Expr} {bounds : Bounds} {fallback : Option Tree}

/-- Working out a repetition is to try its rounds. -/
theorem Call.outcome_repetition (he : call.expr = .repetition body bounds fallback) (hfresh : call.Fresh job) :
    call.outcome job (levels + 1) =
      (Rounds.attempt job bounds fallback call.setting.location (call.rounds job levels body bounds).1).awaiting job
        call.question := by
  have hre : call.session.reenters call.expr call.setting.location = false := by rw [he]; rfl
  obtain ⟨s, hon⟩ : ∃ s, (evaluate job (applyWithin job levels) call.expr call.setting).on (call.within job) =
      (Rounds.attempt job bounds fallback call.setting.location (call.rounds job levels body bounds).1, s) := by
    rw [he]
    show ∃ s, Eval.on (tryRepetition job (applyWithin job levels) body bounds fallback call.setting) _ = _
    unfold tryRepetition
    rw [Eval.on_bind]
    show ∃ s, Eval.on (match (call.rounds job levels body bounds).1 with | .ok _ => _ | .error _ => _) _ = _
    cases (call.rounds job levels body bounds).1 with
    | ok rounds => exact ⟨_, rfl⟩
    | error attempt => exact ⟨_, rfl⟩
  rw [Call.outcome, applyWithin, on_remembering hfresh hre hon]
  rfl

/-- A repetition that memory has no verdict on comes to what its rounds come to. -/
theorem applyWithin_repetition {setting : Setting} {s s' : Session} {rounds : Rounds}
    (hf : job.options.remember = true → s.memory.find? (.of (.repetition body bounds fallback) setting) = none)
    (hr : (Rounds.drive job (applyWithin job levels) body bounds setting (job.remaining setting.position + job.slack + 1)
      ⟨.new setting.position, 0⟩).on ((s.missed job).deeper job none setting.location) = (.ok rounds, s')) :
    ((applyWithin job (levels + 1) (.repetition body bounds fallback) setting).on s).1 =
      .settled (rounds.conclude job bounds fallback setting.location) := by
  let call : Call := ⟨.repetition body bounds fallback, setting, s⟩
  have hrounds : call.rounds job levels body bounds = (.ok rounds, s') := hr
  have houtcome := @Call.outcome_repetition job levels call body bounds fallback rfl hf
  rwa [hrounds] at houtcome

/-- What counts as the same as a repetition with a fallback is one. -/
theorem Expr.exists_repetition {e : Expr} {stood : Tree} (h : (Expr.repetition body bounds (some stood)).content = e.content) :
    ∃ body' stood', e = .repetition body' bounds (some stood') := by
  cases e with
  | repetition body' bounds' fallback' =>
    simp only [Expr.content, Expr.repetition.injEq] at h
    obtain ⟨-, rfl, hfallback⟩ := h
    cases fallback' with
    | none => simp at hfallback
    | some stood' => exact ⟨body', stood', rfl⟩
  | _ => simp [Expr.content] at h

/-- What is remembered for a repetition with a fallback came of one that was worked out elsewhere in the parse. -/
theorem Job.Applies.repetition_repeats {stood : Tree} (h : job.Applies root (levels + 1) call)
    (he : call.expr = .repetition body bounds (some stood)) (hnot : ¬ call.Fresh job) :
    ∃ levels' worked body' stood', job.Applies root (levels' + 1) worked ∧ call.Repeats job (levels + 1) (levels' + 1) worked ∧
      worked.expr = .repetition body' bounds (some stood') := by
  have hrepetition {q : Question} (hsame : (call.question == q) = true) :
      ∃ body' stood', q.expr = .repetition body' bounds (some stood') := by
    have hcontent : (Expr.repetition body bounds (some stood)).content = q.expr.content := by
      rw [← he]
      exact congrArg Question.expr (Question.beq_iff.1 hsame)
    exact Expr.exists_repetition hcontent
  rcases h.earned.repeats hnot levels with ⟨q, hsame, levels', aside, -, hfresh, rfl, suspension, ho⟩ | ⟨levels', worked, hworked, hrepeats⟩
  · -- a repetition is never set aside
    obtain ⟨body', stood', hexpr⟩ := hrepetition hsame
    rw [Call.outcome_repetition hexpr hfresh] at ho
    obtain ⟨before, hattempt, -⟩ := Attempt.awaiting_eq_recursion ho
    cases hrounds : (aside.rounds job levels' body' bounds).1 with
    | ok rounds =>
      rw [hrounds] at hattempt
      cases hattempt
    | error attempt =>
      rw [hrounds] at hattempt
      exact absurd (hrounds.trans (congrArg Except.error hattempt)) Rounds.drive_ne_recursion
  · obtain ⟨body', stood', hexpr⟩ := hrepetition hrepeats.same
    exact ⟨levels', worked, body', stood', hworked, hrepeats, hexpr⟩

end

/-- Whatever the session, the run takes the verdict on its current part and goes on to the next part. -/
def Run.Proceeds (job : Job) (run : Run) (v : Verdict) (further : Run) : Prop :=
  (∀ apply s, (run.absorb job apply (.settled v)).on s = (.ok further, s)) ∧ further.done = run.done + 1

theorem Run.proceeds_matched {run : Run} {t : Tree} : run.Proceeds job (.matched t) (run.next (run.collect job.input t) none) :=
  ⟨fun _ _ => rfl, rfl⟩

theorem Run.exists_proceeds {run : Run} {v : Verdict} (h : v.holds = true) : ∃ further, run.Proceeds job v further := by
  cases v with
  | matched t => exact ⟨_, proceeds_matched⟩
  | silent why => exact ⟨run.next run.collected (some why), fun _ _ => rfl, rfl⟩
  | omitted span => exact ⟨run.next (run.collected.pass job.input span.stop) none, fun _ _ => rfl, rfl⟩
  | failed failure => cases h

/-- The verdict on a repetition that need not match lets the run go on as another one. If the repetition was silent,
that is at the same position. Otherwise the verdict is what some rounds of an equal repetition of the grammar come
to. If none of them matched, the position is the same unless the run takes the items of the fallback and one of them
ends ahead. -/
def Run.Lapses (job : Job) (run : Run) (body : Expr) (max : Option Nat) (fallback : Tree) (v : Verdict) (further : Run) : Prop :=
  run.Proceeds job v further ∧
    ((∃ why, v = .silent why ∧ further.collected.cursor = run.collected.cursor) ∨
      ∃ body' stood rounds, job.grammar.Has (.repetition body' ⟨0, max⟩ (some stood)) ∧
        Expr.same (.repetition body ⟨0, max⟩ (some fallback)) (.repetition body' ⟨0, max⟩ (some stood)) = true ∧
        v = Rounds.conclude job ⟨0, max⟩ (some stood) run.here.location rounds ∧
        (rounds.matched = 0 → (further.collected.cursor = run.collected.cursor ↔
          (run.flatten = true → stood.StaysBehind run.here.location))))

/-- A repetition that need not match, tried by a sequence or merge for one of its parts, leaves the cursor where it is
if it does not match, but for the items of its fallback that a merge takes. If it is worked out and no round
matches, its own fallback is put at the cursor. What came of it otherwise is what some rounds of an equal repetition
come to. So it is in every session in which a parse can try the repetition: the parse begins in such a session, and
whatever it tries leaves one. Where the outcome is remembered, it is that of an equal repetition worked out elsewhere in
the parse, and if no round matched there, the fallback of that one is put at the cursor. -/
theorem Job.lapse_stays (job : Job) (levels : Nat) :
    (∀ e, job.grammar.Has e → job.tally.Ready e .start .start) ∧
    (∀ e setting s, job.tally.Ready e setting s →
      job.tally.Ready e setting ((applyWithin job levels e setting).on s).2) ∧
    (∀ (run : Run) s body max fallback, run.parts[run.done]? = some (.repetition body ⟨0, max⟩ (some fallback)) →
      job.tally.Ready (.repetition body ⟨0, max⟩ (some fallback)) run.here s →
      (∀ v, ((applyWithin job levels (.repetition body ⟨0, max⟩ (some fallback)) run.here).on s).1 = .settled v →
        v.holds = true → ∃ further, run.Lapses job body max fallback v further) ∧
      ∀ rounds s', (job.options.remember = true →
          s.memory.find? (.of (.repetition body ⟨0, max⟩ (some fallback)) run.here) = none) →
        (Rounds.drive job (applyWithin job levels) body ⟨0, max⟩ run.here
          (job.remaining run.here.position + job.slack + 1) ⟨.new run.here.position, 0⟩).on
            ((s.missed job).deeper job none run.here.location) = (.ok rounds, s') → rounds.matched = 0 →
        ∃ v further, ((applyWithin job (levels + 1) (.repetition body ⟨0, max⟩ (some fallback)) run.here).on s).1 = .settled v ∧
          run.Proceeds job v further ∧ (further.collected.cursor = run.collected.cursor ↔
            (run.flatten = true → fallback.StaysBehind run.here.location))) ∧
    ∀ root call (run : Run) body max fallback, job.Applies root (levels + 1) call →
      call.expr = .repetition body ⟨0, max⟩ (some fallback) → run.parts[run.done]? = some call.expr → call.setting = run.here →
      ¬ call.Fresh job →
      ∃ levels' worked body' stood, job.Applies root (levels' + 1) worked ∧ call.Repeats job (levels + 1) (levels' + 1) worked ∧
        worked.expr = .repetition body' ⟨0, max⟩ (some stood) ∧
        ∀ rounds s', worked.rounds job levels' body' ⟨0, max⟩ = (.ok rounds, s') → rounds.matched = 0 →
          ∃ v further, call.outcome job (levels + 1) = .settled v ∧ run.Proceeds job v further ∧
            (further.collected.cursor = run.collected.cursor ↔ (run.flatten = true → stood.StaysBehind run.here.location)) := by
  refine ⟨fun e => .start trivial, fun e setting s h => ?_, fun run s body max fallback _ h =>
    ⟨fun v hv hholds => ?_, fun rounds s' hf hr hzero => ?_⟩, fun root call run body max fallback happlies he _ hsetting hnot => ?_⟩
  · exact h.after (h.yields (job.tally_lawful.kept levels _ _ e setting h.admits)).2
  · have hcame := (h.yields (job.tally_lawful.kept levels _ _ _ _ h.admits)).1
    rw [hv] at hcame
    have htallied : job.Tallied _ run.here.position v := hcame
    rcases htallied body ⟨0, max⟩ (some fallback) rfl with ⟨failure, rfl⟩ | ⟨why, rfl⟩ | ⟨body', stood, rounds, hhas, hsame, hrounds⟩
    · cases hholds
    · exact ⟨run.next run.collected (some why), ⟨fun _ _ => rfl, rfl⟩, .inl ⟨why, rfl, rfl⟩⟩
    · obtain ⟨stood, rfl⟩ : ∃ t, stood = some t := by
        cases stood with
        | none => simp [Expr.same, sameFallback] at hsame
        | some stood => exact ⟨stood, rfl⟩
      by_cases hzero : rounds.matched = 0
      · have hlapse := hrounds.trans (Rounds.conclude_of_lapse hzero)
        refine ⟨_, hlapse ▸ Run.proceeds_matched, .inr ⟨body', stood, rounds, hhas, hsame, hrounds, fun _ => ?_⟩⟩
        exact Run.cursor_collect_movedTo
      · obtain ⟨further, hfurther⟩ := @Run.exists_proceeds job run v hholds
        exact ⟨further, hfurther, .inr ⟨body', stood, rounds, hhas, hsame, hrounds, fun h => absurd h hzero⟩⟩
  · refine ⟨_, _, (applyWithin_repetition hf hr).trans ?_, Run.proceeds_matched, Run.cursor_collect_movedTo⟩
    rw [Rounds.conclude_of_lapse hzero]
  · obtain ⟨levels', worked, body', stood, hworked, hrepeats, hexpr⟩ := happlies.repetition_repeats he hnot
    refine ⟨levels', worked, body', stood, hworked, hrepeats, hexpr, fun rounds s' hrounds hzero =>
      ⟨_, _, ?_, Run.proceeds_matched, Run.cursor_collect_movedTo⟩⟩
    have hlocation : worked.setting.location = run.here.location :=
      hsetting ▸ (congrArg Question.location (Question.beq_iff.1 hrepeats.same)).symm
    rw [← hrepeats.outcome, Call.outcome_repetition hexpr hrepeats.fresh, hrounds, hlocation]
    exact congrArg Attempt.settled (Rounds.conclude_of_lapse hzero)

/-! ## Marks -/

namespace Grammar

/-- Stands for a missing mark, and claims a place. -/
def missingMark (place : Location) : Tree := .list (.own (.empty .origin)) [.text (.own (.empty place)) ['x']]

/-- A mark that may be missing, and a letter. -/
def markedLetter (place : Location) : List Expr :=
  [.repetition (.literal ['q']) ⟨0, some 1⟩ (some (missingMark place)), .literal ['b']]

/-- Marked letters, whose marks become items of their own. -/
def ofMarkedLetters (place : Location) : Grammar where
  start := "s"
  rules := [("s", .merge (markedLetter place))]
  skipper := none
  overrides := []
  productions := []
  kinds := .empty

/-- A line break before a letter without a mark. -/
def brokenOff (place : Location) : Job :=
  .new (ofMarkedLetters place) (.rule "s") .standard .nothing ['\n', 'b']

/-- The run that tries the mark. -/
def tryingMark (place : Location) : Run := .new (markedLetter place) true .start 0

/-- There is no mark, so no round of the repetition matches. -/
def MissesMark (place : Location) (rounds : Rounds) (s : Session) : Prop :=
  (Rounds.drive (brokenOff place) (applyWithin (brokenOff place) 7) (.literal ['q']) ⟨0, some 1⟩ (tryingMark place).here
    ((brokenOff place).remaining (tryingMark place).here.position + (brokenOff place).slack + 1)
    ⟨.new (tryingMark place).here.position, 0⟩).on
      ((Session.start.missed (brokenOff place)).deeper (brokenOff place) none (tryingMark place).here.location) =
        (.ok rounds, s) ∧ rounds.matched = 0

theorem exists_missesMark {place : Location} (h : ((Rounds.drive (brokenOff place) (applyWithin (brokenOff place) 7)
    (.literal ['q']) ⟨0, some 1⟩ (tryingMark place).here ((brokenOff place).remaining (tryingMark place).here.position +
      (brokenOff place).slack + 1) ⟨.new (tryingMark place).here.position, 0⟩).on ((Session.start.missed (brokenOff place)).deeper
        (brokenOff place) none (tryingMark place).here.location)).1.toOption.any (·.matched == 0) = true) :
    ∃ rounds s, MissesMark place rounds s := by
  unfold MissesMark
  generalize Eval.on _ _ = r at h ⊢
  obtain ⟨r, s⟩ := r
  cases r with
  | ok rounds => exact ⟨rounds, s, rfl, eq_of_beq h⟩
  | error attempt => cases h

theorem lapse_stays_brokenOff : ∃ v further,
    ((applyWithin (brokenOff .origin) 8 (.repetition (.literal ['q']) ⟨0, some 1⟩ (some (missingMark .origin)))
      (tryingMark .origin).here).on .start).1 = .settled v ∧
    (tryingMark .origin).Proceeds (brokenOff .origin) v further ∧ further.collected.cursor = .origin ∧
    ∃ further', (tryingMark .origin).Lapses (brokenOff .origin) (.literal ['q']) (some 1) (missingMark .origin) v further' := by
  have hhas : (brokenOff .origin).grammar.Has (.repetition (.literal ['q']) ⟨0, some 1⟩ (some (missingMark .origin))) :=
    Has.part (.body (show (ofMarkedLetters .origin).rule? "s" = some _ from rfl)) List.mem_cons_self
  have hready := (Job.lapse_stays (brokenOff .origin) 8).1 _ hhas
  obtain ⟨rounds, s, hdrive, hzero⟩ := @exists_missesMark .origin (by decide +kernel)
  obtain ⟨v, further, hv, hfurther, hcursor⟩ :=
    ((Job.lapse_stays (brokenOff .origin) 7).2.2.1 (tryingMark .origin) .start _ _ _ rfl hready).2 rounds s (fun _ => rfl) hdrive hzero
  have hholds : ((applyWithin (brokenOff .origin) 8 (.repetition (.literal ['q']) ⟨0, some 1⟩ (some (missingMark .origin)))
      (tryingMark .origin).here).on .start).1.holds = true := by
    decide +kernel
  rw [hv] at hholds
  have hbehind : (missingMark .origin).StaysBehind .origin := by
    rintro _ ⟨⟩ item hm
    exact List.mem_singleton.1 hm ▸ Location.le_refl _
  exact ⟨v, further, hv, hfurther, hcursor.2 fun _ => hbehind,
    ((Job.lapse_stays (brokenOff .origin) 8).2.2.1 (tryingMark .origin) .start _ _ _ rfl hready).1 v hv hholds⟩

/-- The mark that is missing is put before the line break, but its item claims to stand behind it, and so the letter
there is read. -/
theorem lapse_strays : ∃ rounds s v further, MissesMark ⟨1, 0⟩ rounds s ∧
    ((applyWithin (brokenOff ⟨1, 0⟩) 8 (.repetition (.literal ['q']) ⟨0, some 1⟩ (some (missingMark ⟨1, 0⟩)))
      (tryingMark ⟨1, 0⟩).here).on .start).1 = .settled v ∧
    (tryingMark ⟨1, 0⟩).Proceeds (brokenOff ⟨1, 0⟩) v further ∧ (tryingMark ⟨1, 0⟩).collected.cursor = .origin ∧
    further.collected.cursor = ⟨1, ⟨1, 0⟩⟩ ∧ ((brokenOff ⟨1, 0⟩).run (.rule "s")).result.isOk = true := by
  obtain ⟨rounds, s, hmisses⟩ := @exists_missesMark ⟨1, 0⟩ (by decide +kernel)
  refine ⟨rounds, s, .matched ((missingMark ⟨1, 0⟩).movedTo (.empty .origin)), _, hmisses,
    (applyWithin_repetition (fun _ => rfl) hmisses.1).trans ?_, Run.proceeds_matched, rfl, ?_, by decide +kernel⟩
  · rw [Rounds.conclude_of_lapse hmisses.2]
    rfl
  · decide +kernel

end Grammar

end Packrat

/-
Trying an expression as a procedure that is given a way to try others. As long as no rule comes back to
itself, it tries one after the other of the expressions that it asks for, each in a place on the ground
on which it began, and what comes of it is on that ground as well. It does so whoever observes it, and
its twins concur with it. This is shown for each kind of expression.
-/
import Packrat.Proofs.Expr.Twins
import Packrat.Proofs.Grammar.Asking
import Packrat.Proofs.Parse.Collecting
import Packrat.Proofs.Session.Observers
import Packrat.Proofs.Session.Procedure

namespace Packrat

open Procedure

/-! ## Grounds for attempts -/

/-- A verdict on the ground, or the end of the parse. -/
def Attempt.Firm {input : List Char} (G : Ground input) : Attempt → Prop
  | .settled (.matched t) => t.Lies G.Loc
  | .settled (.omitted span) => G.Loc span.stop
  | .settled (.silent _) | .settled (.failed _) | .broken _ => True
  | .recursion _ => False

/-- What expressions without parts give is on the ground, and so are fallbacks where they are put. -/
structure Ground.Bears (job : Job) (G : Ground job.input) : Prop where
  literal : ∀ text {p : Position}, G.At p →
    (Attempt.settled (literalVerdict text (p.rest job.input) p.location)).Firm G
  pattern : ∀ {pattern : Pattern} {p : Position}, job.grammar.Has (.pattern pattern) → G.At p →
    (Attempt.settled (patternVerdict job.grammar.engine pattern (p.rest job.input) p.location)).Firm G
  external : ∀ {key : Nat} {p : Position}, job.grammar.Has (.external key) → G.At p →
    (Attempt.settled (externalVerdict (job.externals key) (p.rest job.input) p.location)).Firm G
  fallback : ∀ {body : Expr} {bounds : Bounds} {t : Tree} {p : Position},
    job.grammar.Has (.repetition body bounds (some t)) → G.At p → (t.movedTo (.empty p.location)).Lies G.Loc

/-- The first expression is asked for by an expression under its way of skipping, in a place on the
ground, and the other one is its twin. -/
def Job.Asked (job : Job) (G : Ground job.input) (identical : Prop) (node : Expr × SkipMode) (e : Expr) (setting : Setting)
    (e' : Expr) (setting' : Setting) : Prop :=
  job.grammar.Asks node (e, setting.skipping) ∧ G.At setting.position ∧ Twins identical e setting e' setting'

section

variable {job : Job} {G : Ground job.input} {counting tracing : Bool} {identical : Prop} {e e' : Expr}
  {setting setting' : Setting} {mode : SkipMode}

/-! ## Skipping -/

/-- What is skipped takes input up to a place on the ground. -/
def Accumulator.SkipsOn {input : List Char} (acc : Accumulator) (G : Ground input) :
    Except GrammarError (Option Accumulator) → Prop
  | .ok (some collected) => ∃ stop, G.Loc stop ∧ collected = acc.skip input stop
  | _ => True

theorem skipsOn_skipStop {acc : Accumulator} {a : Attempt} (ha : a.Firm G) :
    acc.SkipsOn G (.ok (a.skipStop?.bind (acc.skip? job.input))) := by
  have hskip {stop : Location} (hs : G.Loc stop) : acc.SkipsOn G (.ok (acc.skip? job.input stop)) := by
    unfold Accumulator.skip?
    split
    · trivial
    · exact ⟨_, hs, rfl⟩
  rcases a with (t | why | span | failure) | suspension | error
  · exact hskip (Tree.Lies.stop ha)
  · trivial
  · exact hskip ha
  · trivial
  · exact ha.elim
  · trivial

theorem skipBetween_concurs (he : e.Skips) (hs : setting.skipping.unplaced = setting'.skipping.unplaced)
    (hi : identical → setting = setting') {acc : Accumulator} (hacc : G.At acc.cursor) :
    Concur job (job.observed counting tracing) (job.Asked G identical (e, setting.skipping)) (Attempt.Firm G) id (acc.SkipsOn G)
      (fun apply => skipBetween job apply setting acc)
      (fun apply => skipBetween (job.observed counting tracing) apply setting' acc) := by
  unfold skipBetween
  have hsame : (job.observed counting tracing).skipper? setting'.skipping = job.skipper? setting'.skipping := rfl
  have hskippers := @skipper?_unplaced job _ _ hs
  rw [hsame]
  cases hskipper : job.skipper? setting.skipping with
  | none =>
    rw [hskipper] at hskippers
    rw [Option.map_eq_none_iff.1 hskippers.symm]
    exact .pure trivial rfl
  | some s =>
    rw [hskipper] at hskippers
    obtain ⟨s', hs', hunplaced⟩ := Option.map_eq_some_iff.1 hskippers.symm
    rw [hs']
    have hasked : job.Asked G identical (e, setting.skipping) s (setting.moved acc.cursor) s' (setting'.moved acc.cursor) :=
      ⟨.skipper he (by rw [← Job.skipper?_eq]; exact hskipper), hacc, hunplaced.symm, rfl, hs, fun h =>
        ⟨Option.some.inj (hskipper.symm.trans ((hi h).symm ▸ hs')), congrArg (·.moved acc.cursor) (hi h)⟩⟩
    refine .bind (.attempt hasked) (fun a ha => ?_) ?mine ?other (fun _ => .pure) fun _ => .pure
    case mine | other => exact fun a => by cases a <;> exact fun _ => .pure
    rcases a with v | suspension | error
    · exact .pure (skipsOn_skipStop ha) rfl
    · exact ha.elim
    · exact .pure trivial rfl

/-! ## Runs -/

/-- A run in another setting with other parts. -/
def Run.with (run : Run) (parts : List Expr) (setting : Setting) : Run := { run with parts, setting }

/-- A run of parts of an expression that has collected on the ground and was not set aside. -/
structure Run.Plain (run : Run) {input : List Char} (G : Ground input) (e : Expr) : Prop where
  parts : ∀ part ∈ run.parts, part ∈ e.parts
  skips : run.parts ≠ [] → e.Skips
  stands : run.collected.Stands G
  still : run.growing = false

/-- What a run has come to under way: it goes on, on the ground, or something firm came of it. -/
def Run.GoesOnIn (run : Run) {input : List Char} (G : Ground input) : Except Attempt Run → Prop
  | .ok further => run.Continues further ∧ further.collected.Stands G
  | .error a => a.Firm G

variable {run : Run} {parts' : List Expr}

theorem Run.Plain.of_continues {further : Run} (h : run.Plain G e) (hc : run.Continues further)
    (hs : further.collected.Stands G) : further.Plain G e :=
  ⟨hc.parts ▸ h.parts, hc.parts ▸ h.skips, hs, hc.growing.trans h.still⟩

theorem absorb_concurs (h : run.Plain G e) (hne : run.parts ≠ [])
    (hs : run.setting.skipping.unplaced = setting'.skipping.unplaced) (hi : identical → run.setting = setting')
    {a : Attempt} (ha : a.Firm G) :
    Concur job (job.observed counting tracing) (job.Asked G identical (e, run.setting.skipping)) (Attempt.Firm G)
      (Except.map (·.with parts' setting')) (run.GoesOnIn G) (fun apply => run.absorb job apply a)
      (fun apply => (run.with parts' setting').absorb (job.observed counting tracing) apply a) := by
  rcases a with (t | why | span | failure) | suspension | error
  · exact .pure ⟨⟨rfl, rfl, rfl, rfl⟩, Run.stands_collect h.stands ha⟩ rfl
  · exact .pure ⟨⟨rfl, rfl, rfl, rfl⟩, h.stands⟩ rfl
  · exact .pure ⟨⟨rfl, rfl, rfl, rfl⟩, h.stands.pass ha⟩ rfl
  · refine .bind (skipBetween_concurs (h.skips hne) hs hi h.stands.cursor) (fun skipped hskipped => ?_) ?mine ?other
      (fun _ => .pure) fun _ => .pure
    case mine | other => exact fun skipped => by rcases skipped with error | (_ | collected) <;> exact fun _ => .pure
    rcases skipped with error | (_ | collected)
    · exact .pure trivial rfl
    · exact .pure trivial rfl
    · obtain ⟨stop, hstop, rfl⟩ := hskipped
      exact .pure ⟨⟨rfl, rfl, rfl, rfl⟩, h.stands.skip hstop⟩ rfl
  · exact ha.elim
  · exact .pure trivial rfl

/-- A part is asked for, and its twin is there. -/
theorem Run.Plain.asked {run' : Run} {part part' : Expr} (h : run'.Plain G e) (hc : run.Continues run')
    (hs : run.setting.skipping.unplaced = setting'.skipping.unplaced)
    (hi : identical → run.parts = parts' ∧ run.setting = setting') (hp : run'.parts[run'.done]? = some part)
    (hp' : parts'[run'.done]? = some part') (hpart : part.unplaced = part'.unplaced) :
    job.Asked G identical (e, run.setting.skipping) part run'.here part' (run'.with parts' setting').here := by
  refine ⟨?_, h.stands.cursor, hpart, rfl, ?_, fun hidentical => ⟨?_, ?_⟩⟩
  · show job.grammar.Asks _ (part, run'.setting.skipping)
    rw [hc.setting]
    exact .part (h.parts part (List.mem_of_getElem? hp))
  · show run'.setting.skipping.unplaced = _
    rw [hc.setting]
    exact hs
  · exact Option.some.inj (hp.symm.trans (hc.parts.trans (hi hidentical).1 ▸ hp'))
  · exact congrArg (·.moved run'.collected.cursor) (hc.setting.trans (hi hidentical).2)

/-- Parts are tried until the run is complete or something else came of it. -/
theorem drive_concurs (hparts : run.parts.map Expr.unplaced = parts'.map Expr.unplaced)
    (hs : run.setting.skipping.unplaced = setting'.skipping.unplaced)
    (hi : identical → run.parts = parts' ∧ run.setting = setting') : ∀ (fuel : Nat) {run' : Run},
    run.Continues run' → run'.Plain G e →
      Concur job (job.observed counting tracing) (job.Asked G identical (e, run.setting.skipping)) (Attempt.Firm G)
        (Except.map (·.with parts' setting')) (run'.GoesOnIn G) (fun apply => run'.drive job apply fuel)
        (fun apply => (run'.with parts' setting').drive (job.observed counting tracing) apply fuel) := by
  intro fuel
  induction fuel with
  | zero => exact fun _ _ => .pure trivial rfl
  | succ fuel ih =>
    intro run' hc h
    have hget : (run'.parts[run'.done]?).map Expr.unplaced = (parts'[run'.done]?).map Expr.unplaced := by
      rw [← List.getElem?_map, ← List.getElem?_map, hc.parts, hparts]
    unfold Run.drive
    have hsame : (run'.with parts' setting').parts[(run'.with parts' setting').done]? = parts'[run'.done]? := rfl
    rw [hsame]
    cases hp : run'.parts[run'.done]? with
    | none =>
      rw [hp] at hget
      rw [Option.map_eq_none_iff.1 hget.symm]
      exact .pure ⟨.refl run', h.stands⟩ rfl
    | some part =>
      rw [hp] at hget
      obtain ⟨part', hp', hunplaced⟩ := Option.map_eq_some_iff.1 hget.symm
      rw [hp']
      have hne := List.ne_nil_of_mem (List.mem_of_getElem? hp)
      refine .begins (h.asked hc hs hi hp hp' hunplaced.symm) (begins_wary ?mine fun _ => .pure) (begins_wary ?other fun _ => .pure) fun a ha => ?_
      case mine | other =>
        intro a alarm apply hpersists
        refine .bind (.absorb hpersists) fun r => ?_
        split
        · exact .drive hpersists
        · exact .pure
      have habsorb := @absorb_concurs job G counting tracing identical e setting' run' parts' h hne
        (hc.setting ▸ hs) (fun h => hc.setting.trans (hi h).2) a ha
      rw [hc.setting] at habsorb
      refine .bind habsorb (fun r hr => ?_) ?mine ?other (fun _ => .pure) fun _ => .pure
      case mine | other =>
        intro r alarm apply hpersists
        cases r with
        | error a => exact .pure
        | ok further => exact .drive hpersists
      cases r with
      | error a => exact .pure hr rfl
      | ok further =>
        refine (ih (hc.trans hr.1) (h.of_continues hr.1 hr.2)).post fun b hb => ?_
        cases b with
        | error a => exact hb
        | ok last => exact ⟨hr.1.trans hb.1, hb.2⟩

theorem Run.conclude_firm (h : run.collected.Stands G) : (Attempt.settled (run.conclude job)).Firm G := by
  rcases run.conclude_cases job with hc | ⟨why, -, -, hc⟩
  · rw [hc]
    exact h.tree
  · rw [hc]
    trivial

theorem trySequence_concurs {parts : List Expr} (hmem : ∀ part ∈ parts, part ∈ e.parts) (hskips : parts ≠ [] → e.Skips)
    (hparts : parts.map Expr.unplaced = parts'.map Expr.unplaced) (hg : G.At setting.position)
    (hp : setting.position = setting'.position) (hs : setting.skipping.unplaced = setting'.skipping.unplaced)
    (hi : identical → parts = parts' ∧ setting = setting') (flatten : Bool) :
    Concur job (job.observed counting tracing) (job.Asked G identical (e, setting.skipping)) (Attempt.Firm G) id (Attempt.Firm G)
      (fun apply => trySequence job apply parts flatten setting)
      (fun apply => trySequence (job.observed counting tracing) apply parts' flatten setting') := by
  let run := Run.new parts flatten setting 0
  have hplain : run.Plain G e := ⟨hmem, hskips, Accumulator.stands_new hg, rfl⟩
  have hrun : Run.new parts' flatten setting' 0 = run.with parts' setting' := by
    show _ = { Run.new parts flatten setting 0 with parts := parts', setting := setting' }
    unfold Run.new
    rw [hp]
  have hfuel : (run.with parts' setting').fuel (job.observed counting tracing) = run.fuel job := by
    have hlength := congrArg List.length hparts
    rw [List.length_map, List.length_map] at hlength
    show parts'.length + _ + _ + _ = parts.length + _ + _ + _
    rw [hlength]
    rfl
  unfold trySequence
  rw [hrun]
  unfold Run.finish
  rw [hfuel]
  refine .bind (drive_concurs hparts hs hi _ (.refl run) hplain) (fun r hr => ?_) ?mine ?other (fun _ => .pure) fun _ => .pure
  case mine | other =>
    intro r alarm apply hpersists
    cases r with
    | error a => exact .pure
    | ok further => exact .complete hpersists
  cases r with
  | error a => exact .pure hr rfl
  | ok last =>
    have hlast := hplain.of_continues hr.1 hr.2
    show Concur _ _ _ _ _ _ (fun apply => last.complete job apply)
      (fun apply => (last.with parts' setting').complete (job.observed counting tracing) apply)
    unfold Run.complete
    have hstill : (last.with parts' setting').growing = last.growing := rfl
    simp only [hstill, hlast.still, Bool.false_eq_true, if_false]
    exact .pure (Run.conclude_firm hlast.stands) rfl

/-! ## Choices -/

/-- The alternatives of a choice are tried in order. -/
theorem tryChoice_concurs (hg : G.At setting.position) (hp : setting.position = setting'.position)
    (hs : setting.skipping.unplaced = setting'.skipping.unplaced) : ∀ {alternatives alternatives' : List Expr} {tried : Tried},
    (∀ part ∈ alternatives, part ∈ e.parts) → alternatives.map Expr.unplaced = alternatives'.map Expr.unplaced →
      (identical → alternatives = alternatives' ∧ setting = setting') → tried.recursion = none →
        Concur job (job.observed counting tracing) (job.Asked G identical (e, setting.skipping)) (Attempt.Firm G) id
          (Attempt.Firm G) (fun apply => tryChoice job apply setting alternatives tried)
          (fun apply => tryChoice (job.observed counting tracing) apply setting' alternatives' tried) := by
  -- what comes of an alternative is firm, so nothing is ever set aside
  intro alternatives
  induction alternatives with
  | nil =>
    intro alternatives' tried _ hunplaced _ hn
    cases alternatives' with
    | cons => cases hunplaced
    | nil =>
      refine .pure ?_ ?_
      · unfold Tried.exhausted
        rw [hn]
        split
        · trivial
        · next hs => cases hs
        · trivial
      · unfold Setting.rest Setting.location
        rw [hp]
        rfl
  | cons part others ih =>
    intro alternatives' tried hmem hunplaced hi hn
    cases alternatives' with
    | nil => cases hunplaced
    | cons part' others' =>
      obtain ⟨hpart, hothers⟩ := List.cons.inj hunplaced
      have hasked : job.Asked G identical (e, setting.skipping) part setting part' setting' :=
        ⟨.part (hmem part List.mem_cons_self), hg, hpart, hp, hs, fun h => ⟨(List.cons.inj (hi h).1).1, (hi h).2⟩⟩
      unfold tryChoice
      refine .bind (.attempt hasked) (fun a ha => ?_) ?mine ?other (fun _ => .pure) fun _ => .pure
      case mine | other =>
        intro a alarm apply hpersists
        split
        · split
          · exact .plantSeed hpersists
          · exact .pure
        · exact .bind .emit fun _ => .bind (.count (fun _ => Nat.le_refl _) fun _ => Nat.le_refl _) fun _ =>
            .tryChoice hpersists
        · exact .tryChoice hpersists
        · exact .pure
      rcases a with (t | why | span | failure) | suspension | error
      · simp only [hn]
        exact .pure ha rfl
      · exact .pure ha rfl
      · exact .pure ha rfl
      · refine .books .emit .emit (.books (.count (fun _ => rfl) (fun _ => rfl) fun _ => rfl)
          (.count (fun _ => rfl) (fun _ => rfl) fun _ => rfl) (ih (fun e he => hmem e (List.mem_cons_of_mem _ he)) hothers
            (fun h => ⟨(List.cons.inj (hi h).1).2, (hi h).2⟩) ?_))
        unfold Tried.failed
        split <;> exact hn
      · exact ha.elim
      · exact .pure trivial rfl

/-! ## Repetitions -/

/-- What the rounds of a repetition have come to: they are collected on the ground, or something firm
came of them. -/
def Rounds.StandsOn {input : List Char} (G : Ground input) : Except Attempt Rounds → Prop
  | .ok rounds => rounds.collected.Stands G
  | .error a => a.Firm G

/-- Rounds are tried until one does not match, does not get further or decides for the repetition. -/
theorem rounds_concurs {body body' : Expr} {bounds : Bounds} (hskips : e.Skips) (hmem : body ∈ e.parts)
    (hbody : body.unplaced = body'.unplaced) (hs : setting.skipping.unplaced = setting'.skipping.unplaced)
    (hi : identical → body = body' ∧ setting = setting') :
    ∀ (fuel : Nat) {rounds : Rounds}, rounds.collected.Stands G →
      Concur job (job.observed counting tracing) (job.Asked G identical (e, setting.skipping)) (Attempt.Firm G) id
        (Rounds.StandsOn G) (fun apply => rounds.drive job apply body bounds setting fuel)
        (fun apply => rounds.drive (job.observed counting tracing) apply body' bounds setting' fuel) := by
  intro fuel
  induction fuel with
  | zero => exact fun h => .pure h rfl
  | succ fuel ih =>
    intro rounds h
    have hasked : job.Asked G identical (e, setting.skipping) body (setting.moved rounds.collected.cursor) body'
        (setting'.moved rounds.collected.cursor) := ⟨.part hmem, h.cursor, hbody, rfl, hs,
          fun h => ⟨(hi h).1, congrArg (·.moved rounds.collected.cursor) (hi h).2⟩⟩
    unfold Rounds.drive
    refine .ite (fun _ => .pure h rfl) fun _ => ?_
    refine .bind (.attempt hasked) (fun a ha => ?_) ?mine ?other (fun _ => .pure) fun _ => .pure
    case mine | other =>
      intro a alarm apply hpersists
      split
      · show alarm.Persists (if _ then _ else _)
        split
        · exact .pure
        · exact .rounds hpersists
      · show alarm.Persists (if _ then _ else _)
        split
        · exact .pure
        · exact .rounds hpersists
      case h_5 =>
        refine .bind (.skipBetween hpersists) fun r => ?_
        split
        · exact .rounds hpersists
        all_goals exact .pure
      all_goals exact .pure
    rcases a with (t | (_ | _ | _) | span | failure) | suspension | error
    · have hstands : (rounds.next (rounds.collected.add job.input t)).collected.Stands G := h.add ha
      exact .ite (fun _ => .pure hstands rfl) fun _ => ih hstands
    · exact .pure h rfl
    · exact .pure trivial rfl
    · exact .pure trivial rfl
    · have hstands : (rounds.next (rounds.collected.pass job.input span.stop)).collected.Stands G := h.pass ha
      exact .ite (fun _ => .pure h rfl) fun _ => ih hstands
    · refine .bind (skipBetween_concurs hskips hs (fun h => (hi h).2) h.cursor) (fun skipped hskips => ?_)
        ?mine ?other (fun _ => .pure)
        fun _ => .pure
      case mine | other =>
        intro r alarm apply hpersists
        split
        · exact .rounds hpersists
        all_goals exact .pure
      rcases skipped with error | (_ | collected)
      · exact .pure trivial rfl
      · exact .pure h rfl
      · obtain ⟨stop, hstop, rfl⟩ := hskips
        have hstands : ({ rounds with collected := rounds.collected.skip job.input stop } : Rounds).collected.Stands G :=
          h.skip hstop
        exact ih hstands
    · exact ha.elim
    · exact .pure trivial rfl

theorem Rounds.conclude_firm (hG : G.Bears job) {body : Expr} {bounds : Bounds} {fallback : Option Tree} {rounds : Rounds}
    {p : Position} (hhas : job.grammar.Has (.repetition body bounds fallback)) (hp : G.At p) (h : rounds.collected.Stands G) :
    (Attempt.settled (rounds.conclude job bounds fallback p.location)).Firm G := by
  unfold Rounds.conclude
  split
  · split
    · exact hG.fallback hhas hp
    · trivial
  · split
    · trivial
    · split
      · exact G.location h.stop
      · exact h.tree

theorem tryRepetition_concurs (hG : G.Bears job) {body body' : Expr} {bounds : Bounds} {fallback fallback' : Option Tree}
    (hhas : job.grammar.Has (.repetition body bounds fallback)) (hbody : body.unplaced = body'.unplaced)
    (hfallback : fallback.map (·.movedTo (.empty .origin)) = fallback'.map (·.movedTo (.empty .origin)))
    (hg : G.At setting.position) (hp : setting.position = setting'.position)
    (hs : setting.skipping.unplaced = setting'.skipping.unplaced) (hi : identical → body = body' ∧ setting = setting') :
    Concur job (job.observed counting tracing) (job.Asked G identical (.repetition body bounds fallback, setting.skipping))
      (Attempt.Firm G) id (Attempt.Firm G)
      (fun apply => tryRepetition job apply body bounds fallback setting)
      (fun apply => tryRepetition (job.observed counting tracing) apply body' bounds fallback' setting') := by
  have hconclude (rounds : Rounds) : rounds.conclude job bounds fallback setting.location =
      rounds.conclude (job.observed counting tracing) bounds fallback' setting'.location := by
    have hlocation : setting.location = setting'.location := congrArg Position.location hp
    have hmoved (span : Span) : fallback.map (·.movedTo span) = fallback'.map (·.movedTo span) := by
      have := congrArg (Option.map (·.movedTo span)) hfallback
      simpa only [Option.map_map, Function.comp_def, Tree.movedTo_movedTo] using this
    unfold Rounds.conclude
    have := hmoved (.empty setting.location)
    rw [← hlocation]
    cases fallback <;> cases fallback' <;> simp_all [Job.observed]
  unfold tryRepetition
  rw [← hp]
  refine .bind (rounds_concurs (e := .repetition body bounds fallback) trivial List.mem_cons_self hbody hs hi _
    (Accumulator.stands_new hg)) (fun r hr => ?_) ?mine ?other (fun _ => .pure) fun _ => .pure
  case mine | other =>
    intro r alarm apply hpersists
    cases r <;> exact .pure
  cases r with
  | error a => exact .pure hr rfl
  | ok rounds =>
    exact .pure (Rounds.conclude_firm hG hhas hg hr) (congrArg Attempt.settled (hconclude rounds))

/-! ## Expressions -/

theorem wrapAttempt_firm {name : String} {a : Attempt} (ha : a.Firm G) : (wrapAttempt job name a).Firm G := by
  rcases a with (t | why | span | failure) | suspension | error
  · unfold wrapAttempt
    simp only
    split
    · next ht => exact Grammar.lies_produce ht ha
    · trivial
  · exact ha
  · exact ha
  · exact ha
  · exact ha.elim
  · exact ha

theorem tryRule_concurs {name : String} (hg : G.At setting.position) (hp : setting.position = setting'.position)
    (hs : setting.skipping.unplaced = setting'.skipping.unplaced) (hi : identical → setting = setting') :
    Concur job (job.observed counting tracing) (job.Asked G identical (.rule name, setting.skipping)) (Attempt.Firm G) id
      (Attempt.Firm G) (fun apply => tryRule job apply name setting)
      (fun apply => tryRule (job.observed counting tracing) apply name setting') := by
  unfold tryRule
  have hsame : (job.observed counting tracing).grammar.rule? name = job.grammar.rule? name := rfl
  rw [hsame]
  cases hb : job.grammar.rule? name with
  | none => exact .pure trivial rfl
  | some body =>
    have hskipping : (job.skippingIn name setting.skipping).unplaced =
        ((job.observed counting tracing).skippingIn name setting'.skipping).unplaced := by
      rw [Job.skippingIn_eq, Job.skippingIn_eq]
      show (job.grammar.modeIn name setting.skipping).unplaced = (job.grammar.modeIn name setting'.skipping).unplaced
      unfold Grammar.modeIn
      split
      · rfl
      · rfl
      · exact hs
    have hasked : job.Asked G identical (.rule name, setting.skipping) body
        ⟨setting.position, some name, job.skippingIn name setting.skipping⟩ body
        ⟨setting'.position, some name, (job.observed counting tracing).skippingIn name setting'.skipping⟩ :=
      ⟨.body hb, hg, rfl, hp, hskipping, fun h => ⟨rfl, by rw [hi h]; rfl⟩⟩
    refine .books .emit .emit (.books (.count (fun _ => rfl) (fun _ => rfl) fun _ => rfl)
      (.count (fun _ => rfl) (fun _ => rfl) fun _ => rfl) (.bind (.attempt hasked) (fun a ha => ?_) ?mine ?other ?_ ?_))
    case mine | other => exact fun a _ _ _ => .bind .emit fun _ => .pure
    · exact .books .emit .emit (.pure (wrapAttempt_firm ha) rfl)
    · exact fun error => .bind (.of_books .emit) .pure
    · exact fun error => .bind (.of_books .emit) .pure

theorem aheadAttempt_firm {body : Expr} {a : Attempt} (ha : a.Firm G) : (aheadAttempt job body setting a).Firm G := by
  rcases a with v | suspension | error
  · unfold aheadAttempt
    simp only
    split <;> trivial
  · exact ha.elim
  · trivial

theorem notAheadAttempt_firm {body : Expr} {a : Attempt} (ha : a.Firm G) : (notAheadAttempt job body setting a).Firm G := by
  rcases a with v | suspension | error
  · unfold notAheadAttempt
    simp only
    split <;> trivial
  · exact ha.elim
  · trivial

theorem omissionAttempt_firm {a : Attempt} (hg : G.At setting.position) (ha : a.Firm G) :
    (omissionAttempt job setting a).Firm G := by
  rcases a with (t | (_ | _ | _) | span | failure) | suspension | error
  · exact G.location (G.moveTo hg (Tree.Lies.stop ha))
  · exact G.location hg
  · trivial
  · trivial
  · exact ha
  · trivial
  · exact ha.elim
  · trivial

/-- Twins that are tried in one place, observed in whatever way, concur. -/
theorem evaluate_concurs (hG : G.Bears job) (he : job.grammar.Has e) (hg : G.At setting.position)
    (htwins : Twins identical e setting e' setting') (counting tracing : Bool) :
    Concur job (job.observed counting tracing) (job.Asked G identical (e, setting.skipping)) (Attempt.Firm G) id (Attempt.Firm G)
      (fun apply => evaluate job apply e setting) (fun apply => evaluate (job.observed counting tracing) apply e' setting') := by
  obtain ⟨position, rule, mode⟩ := setting
  obtain ⟨position', rule', mode'⟩ := setting'
  obtain ⟨hexpr, hp, hs, hi⟩ := htwins
  cases show position = position' from hp
  have hpart {part part' : Expr} (hpart : part ∈ e.parts) (hunplaced : part.unplaced = part'.unplaced)
      (hsame : identical → part = part') :
      job.Asked G identical (e, mode) part ⟨position, rule, mode⟩ part' ⟨position, rule', mode'⟩ :=
    ⟨.part hpart, hg, hunplaced, rfl, hs, fun h => ⟨hsame h, (hi h).2⟩⟩
  cases e with
  | literal text =>
    cases e' <;> simp only [Expr.unplaced, Expr.literal.injEq, reduceCtorEq] at hexpr
    subst hexpr
    exact .pure (hG.literal text hg) rfl
  | pattern p =>
    cases e' <;> simp only [Expr.unplaced, Expr.pattern.injEq, reduceCtorEq] at hexpr
    subst hexpr
    exact .pure (hG.pattern he hg) rfl
  | external key =>
    cases e' <;> simp only [Expr.unplaced, Expr.external.injEq, reduceCtorEq] at hexpr
    subst hexpr
    exact .pure (hG.external he hg) rfl
  | rule name =>
    cases e' <;> simp only [Expr.unplaced, Expr.rule.injEq, reduceCtorEq] at hexpr
    subst hexpr
    exact tryRule_concurs hg hp hs fun h => (hi h).2
  | sequence parts =>
    cases e' <;> simp only [Expr.unplaced, Expr.sequence.injEq, Expr.unplacedAll_eq_map, reduceCtorEq] at hexpr
    exact trySequence_concurs (e := .sequence parts) (fun _ => id) id hexpr hg hp hs
      (fun h => ⟨Expr.sequence.inj (hi h).1, (hi h).2⟩) false
  | merge parts =>
    cases e' <;> simp only [Expr.unplaced, Expr.merge.injEq, Expr.unplacedAll_eq_map, reduceCtorEq] at hexpr
    exact trySequence_concurs (e := .merge parts) (fun _ => id) id hexpr hg hp hs
      (fun h => ⟨Expr.merge.inj (hi h).1, (hi h).2⟩) true
  | choice alternatives =>
    cases e' <;> simp only [Expr.unplaced, Expr.choice.injEq, Expr.unplacedAll_eq_map, reduceCtorEq] at hexpr
    exact tryChoice_concurs (e := .choice alternatives) hg hp hs (fun _ => id) hexpr
      (fun h => ⟨Expr.choice.inj (hi h).1, (hi h).2⟩) rfl
  | repetition body bounds fallback =>
    cases e' <;> simp only [Expr.unplaced, Expr.repetition.injEq, reduceCtorEq] at hexpr
    obtain ⟨hbody, rfl, hfallback⟩ := hexpr
    exact tryRepetition_concurs hG he hbody hfallback hg hp hs fun h => ⟨(Expr.repetition.inj (hi h).1).1, (hi h).2⟩
  | ahead body =>
    cases e' <;> simp only [Expr.unplaced, Expr.ahead.injEq, reduceCtorEq] at hexpr
    refine .bind (.attempt (hpart (List.mem_singleton.2 rfl) hexpr fun h => Expr.ahead.inj (hi h).1))
      (fun a ha => .pure (aheadAttempt_firm ha) ?_)
      (fun _ _ _ _ => .pure) (fun _ _ _ _ => .pure) (fun _ => .pure) fun _ => .pure
    unfold aheadAttempt
    rw [Expr.display_eq_of_unplaced_eq hexpr]
    rfl
  | notAhead body =>
    cases e' <;> simp only [Expr.unplaced, Expr.notAhead.injEq, reduceCtorEq] at hexpr
    refine .bind (.attempt (hpart (List.mem_singleton.2 rfl) hexpr fun h => Expr.notAhead.inj (hi h).1))
      (fun a ha => .pure (notAheadAttempt_firm ha) ?_)
      (fun _ _ _ _ => .pure) (fun _ _ _ _ => .pure) (fun _ => .pure) fun _ => .pure
    unfold notAheadAttempt
    rw [Expr.display_eq_of_unplaced_eq hexpr]
    rfl
  | omission body =>
    cases e' <;> simp only [Expr.unplaced, Expr.omission.injEq, reduceCtorEq] at hexpr
    exact .bind (.attempt (hpart (List.mem_singleton.2 rfl) hexpr fun h => Expr.omission.inj (hi h).1))
      (fun a ha => .pure (omissionAttempt_firm hg ha) rfl)
      (fun _ _ _ _ => .pure) (fun _ _ _ _ => .pure) (fun _ => .pure) fun _ => .pure

end

end Packrat

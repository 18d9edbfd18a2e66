/-
What the stretch of a sequence or a repetition is made of. Whatever matched or was left out on the way is a gain, with
the place where it was tried and the stretch that it accounts for itself. A log of the gains is kept beside the loop,
turn by turn, and the stretch is told from the log: it begins with the first gain and ends with the one that ends
last, so what is skipped before and after them is not in it.

There are two ways round this. The stretch of what is left out is passed, which moves the cursor to its end, and
nobody asks where it begins: if input was skipped on the way to it, as repetitions do, then that input is taken for a
part of the stretch. And what is left out of a round without getting anywhere ends the repetition before it is taken.
-/
import Packrat.Parse.Answer
import Packrat.Parse.Matcher
import Packrat.Proofs.Parse.Forward
import Packrat.Proofs.Parse.Turns

namespace Packrat

/-! ## Gains -/

/-- Something that matched or was left out. -/
structure Gain where
  /-- Where it was tried. -/
  place : Location
  /-- What it accounts for. -/
  span : Span
  omitted : Bool
deriving DecidableEq

namespace Gain

/-- Left out from behind the place where it was tried: input was skipped on the way. -/
def Late (g : Gain) : Prop := g.omitted = true ∧ g.span.start ≠ g.place

/-- Left out without getting anywhere. -/
def Idle (g : Gain) : Prop := g.omitted = true ∧ g.span.stop ≤ g.place

/-- Where a stretch begins that has the gain for its first: nobody asks where begins what is left out. -/
def begins (g : Gain) : Location := if g.omitted then g.place else g.span.start

/-- The gain lies where it was tried, or behind. -/
def Ahead (g : Gain) : Prop := g.place ≤ g.span.start ∧ g.place ≤ g.span.stop

theorem begins_of_not_late {g : Gain} (h : ¬ g.Late) : g.begins = g.span.start := by
  unfold begins
  split
  · next ho => exact (Decidable.not_not.1 fun hne => h ⟨ho, hne⟩).symm
  · rfl

end Gain

/-- What the verdict accounts for, if there is anything. -/
def Verdict.span? : Verdict → Option Span
  | .matched t => some t.extent
  | .omitted span => some span
  | .silent _ | .failed _ => none

/-- What is gained by an attempt at the place. -/
def Attempt.gain? (place : Location) : Attempt → Option Gain
  | .settled (.matched t) => some ⟨place, t.extent, false⟩
  | .settled (.omitted span) => some ⟨place, span, true⟩
  | _ => none

/-- The stretch begins where the first gain does, unless that came late, and it ends with the one that ends last of
those that count. -/
structure Span.Frames (span : Span) (gains : List Gain) (Counts : Gain → Prop) : Prop where
  start : ∀ first, gains.head? = some first → ¬ first.Late → span.start = first.span.start
  /-- It then begins before the input that was skipped on the way. -/
  late : ∀ first, gains.head? = some first → first.Late → span.start = first.place
  reaches : ∀ g ∈ gains, Counts g → g.span.stop ≤ span.stop
  ends : gains ≠ [] → ∃ g ∈ gains, span.stop = g.span.stop

/-! ## Logs -/

section

variable {ρ σ γ : Type}

/-- What is seen of the turns of a loop that is begun in the session, each from the state and in the session in
which it is taken. -/
def seen (turn : σ → Eval (ρ ⊕ σ)) (view : σ → Session → Option γ) : (allowed : Nat) → σ → Session → List γ
  | 0, _, _ => []
  | allowed + 1, x, s =>
    (view x s).toList ++ match (turn x).on s with
      | (.inl _, _) => []
      | (.inr y, t) => seen turn view allowed y t

/-- A turn leaves a result that agrees with the log, or a state and a session that do. -/
def Agrees (Done : List γ → ρ → Prop) (Inv : List γ → σ → Session → Prop) (log : List γ) : (ρ ⊕ σ) × Session → Prop
  | (.inl r, _) => Done log r
  | (.inr y, t) => Inv log y t

/-- If each turn agrees with the log, with what is seen of it added, then the result agrees with the whole log. -/
theorem seen_agrees {turn : σ → Eval (ρ ⊕ σ)} {stop : σ → ρ} {view : σ → Session → Option γ}
    {Done : List γ → ρ → Prop} {Inv : List γ → σ → Session → Prop}
    (hturn : ∀ log x s, Inv log x s → Agrees Done Inv (log ++ (view x s).toList) ((turn x).on s))
    (hstop : ∀ log x s, Inv log x s → Done log (stop x)) :
    ∀ {allowed : Nat} {log : List γ} {x : σ} {s : Session}, Inv log x s →
      Done (log ++ seen turn view allowed x s) ((takeTurns turn stop allowed x).on s).1
  | 0, log, x, s, h => by
    rw [seen, List.append_nil]
    exact hstop log x s h
  | allowed + 1, log, x, s, h => by
    have hnext := hturn log x s h
    rw [seen, takeTurns, Eval.on_bind, ← List.append_assoc]
    generalize (turn x).on s = next at hnext ⊢
    obtain ⟨r | y, t⟩ := next
    · rw [List.append_nil]
      exact hnext
    · exact seen_agrees hturn hstop hnext

end

/-! ## What is collected -/

/-- What is collected accounts for the gains. -/
structure Accumulator.Accounts (acc : Accumulator) (gains : List Gain) : Prop where
  begun : acc.begun = true ↔ gains ≠ []
  idle : acc.begun = false → acc.start = acc.cursor ∧ acc.stop = acc.cursor
  start : ∀ first, gains.head? = some first → acc.start.location = first.begins
  reaches : ∀ g ∈ gains, g.span.stop ≤ acc.stop.location
  ends : gains ≠ [] → ∃ g ∈ gains, acc.stop.location = g.span.stop

namespace Accumulator.Accounts

variable {acc : Accumulator} {gains : List Gain} {input : List Char} {g : Gain}

theorem new (p : Position) : (Accumulator.new p).Accounts [] where
  begun := by simp [Accumulator.new]
  idle := fun _ => ⟨rfl, rfl⟩
  start := nofun
  reaches := nofun
  ends := fun h => absurd rfl h

theorem eq_nil (h : acc.Accounts gains) (hb : ¬ acc.begun = true) : gains = [] := by
  cases gains with
  | nil => rfl
  | cons first others => exact absurd (h.begun.2 (List.cons_ne_nil first others)) hb

/-- What was gained first stays the first. -/
theorem head_concat (h : acc.Accounts gains) (hb : acc.begun = true) : (gains ++ [g]).head? = gains.head? := by
  cases gains with
  | nil => exact absurd rfl (h.begun.1 hb)
  | cons first others => rfl

theorem skip (h : acc.Accounts gains) (stop : Location) : (acc.skip input stop).Accounts gains := by
  unfold Accumulator.skip
  simp only
  split
  · next hb => exact ⟨h.begun, fun hn => absurd (hb.symm.trans hn) nofun, h.start, h.reaches, h.ends⟩
  · next hb =>
    -- nothing was gained, so there is nothing to account for
    obtain rfl := h.eq_nil hb
    exact ⟨h.begun, fun _ => ⟨rfl, rfl⟩, nofun, nofun, fun hne => absurd rfl hne⟩

/-- Input is taken up to the end of a gain that was tried at the cursor. -/
theorem pass_reaches (h : acc.Accounts gains) (hplace : g.place = acc.cursor.location) (hg : g.Ahead) :
    (∀ g' ∈ gains ++ [g], g'.span.stop ≤ (acc.pass input g.span.stop).stop.location) ∧
      ∃ g' ∈ gains ++ [g], (acc.pass input g.span.stop).stop.location = g'.span.stop := by
  have hcursor : (acc.cursor.moveTo input g.span.stop).location = g.span.stop :=
    Position.location_moveTo_of_le (hplace ▸ hg.2)
  have hmem : g ∈ gains ++ [g] := List.mem_append_right _ (List.mem_singleton_self g)
  have hstop : (acc.pass input g.span.stop).stop =
    if acc.stop.location < (acc.cursor.moveTo input g.span.stop).location then acc.cursor.moveTo input g.span.stop
    else acc.stop := rfl
  rw [hstop]
  split
  -- the gain ends behind all others
  · next hlt =>
    rw [hcursor] at hlt ⊢
    refine ⟨fun g' hg' => ?_, g, hmem, rfl⟩
    rcases List.mem_append.1 hg' with hg' | hg'
    · exact Location.le_trans (h.reaches g' hg') (Location.le_of_lt hlt)
    · exact List.mem_singleton.1 hg' ▸ Location.le_refl _
  -- another one reaches as far, unless there is none and the gain takes no input
  · next hlt =>
    rw [hcursor] at hlt
    have hle : g.span.stop ≤ acc.stop.location := Location.not_lt.1 hlt
    refine ⟨fun g' hg' => ?_, ?_⟩
    · rcases List.mem_append.1 hg' with hg' | hg'
      · exact h.reaches g' hg'
      · exact List.mem_singleton.1 hg' ▸ hle
    · cases hb : acc.begun with
      | true =>
        obtain ⟨g', hg', hstop⟩ := h.ends (h.begun.1 hb)
        exact ⟨g', List.mem_append_left _ hg', hstop⟩
      | false =>
        rw [(h.idle hb).2] at hle ⊢
        exact ⟨g, hmem, Location.le_antisymm (hplace ▸ hg.2) hle⟩

theorem pass {span : Span} (h : acc.Accounts gains) (hg : (Verdict.omitted span).From acc.cursor.location) :
    (acc.pass input span.stop).Accounts (gains ++ [⟨acc.cursor.location, span, true⟩]) where
  begun := by simp [Accumulator.pass]
  idle := nofun
  start := by
    intro first hfirst
    show acc.start.location = _
    by_cases hb : acc.begun = true
    · rw [h.head_concat hb] at hfirst
      exact h.start first hfirst
    · rw [h.eq_nil hb] at hfirst
      cases hfirst
      rw [(h.idle (Bool.not_eq_true _ ▸ hb)).1]
      rfl
  reaches := (h.pass_reaches (g := ⟨acc.cursor.location, span, true⟩) rfl hg).1
  ends := fun _ => (h.pass_reaches (g := ⟨acc.cursor.location, span, true⟩) rfl hg).2

theorem add {t : Tree} (h : acc.Accounts gains) (ht : (Verdict.matched t).From acc.cursor.location) :
    (acc.add input t).Accounts (gains ++ [⟨acc.cursor.location, t.extent, false⟩]) where
  begun := by simp [Accumulator.add, Accumulator.pass]
  idle := nofun
  start := by
    intro first hfirst
    show Position.location (if acc.begun then _ else _) = _
    split
    · next hb =>
      rw [h.head_concat hb] at hfirst
      exact h.start first hfirst
    · next hb =>
      rw [h.eq_nil hb] at hfirst
      cases hfirst
      exact Position.location_moveTo_of_le ht.1
  reaches := (h.pass_reaches (g := ⟨acc.cursor.location, t.extent, false⟩) rfl ht).1
  ends := fun _ => (h.pass_reaches (g := ⟨acc.cursor.location, t.extent, false⟩) rfl ht).2

/-- What accounts for the gains is framed by them. -/
theorem frames (h : acc.Accounts gains) : (acc.span input).Frames gains fun _ => True where
  start := fun first hfirst hlate => (h.start first hfirst).trans (Gain.begins_of_not_late hlate)
  late := fun first hfirst hlate => (h.start first hfirst).trans (if_pos hlate.1)
  reaches := fun g hg _ => h.reaches g hg
  ends := h.ends

end Accumulator.Accounts

/-- The gain that ended a repetition is not taken, but where it is the only one the stretch is as empty as it is. -/
theorem Accumulator.Accounts.frames_concat {acc : Accumulator} {gains : List Gain} {input : List Char} {g : Gain}
    (h : acc.Accounts gains) (hplace : g.place = acc.cursor.location) (hg : g.Ahead) (hidle : g.Idle) :
    (acc.span input).Frames (gains ++ [g]) (¬ ·.Idle) := by
  have hreaches : ∀ g' ∈ gains ++ [g], ¬ g'.Idle → g'.span.stop ≤ acc.stop.location := by
    intro g' hg' hnot
    rcases List.mem_append.1 hg' with hg' | hg'
    · exact h.reaches g' hg'
    · exact absurd (List.mem_singleton.1 hg' ▸ hidle) hnot
  by_cases hb : acc.begun = true
  -- the first gain and the one that reaches furthest were there before
  · refine ⟨fun first hfirst => ?_, fun first hfirst => ?_, hreaches, fun _ => ?_⟩
    · exact h.frames.start first (h.head_concat hb ▸ hfirst)
    · exact h.frames.late first (h.head_concat hb ▸ hfirst)
    · obtain ⟨g', hg', hstop⟩ := h.ends (h.begun.1 hb)
      exact ⟨g', List.mem_append_left _ hg', hstop⟩
  -- nothing was taken, so the stretch is empty, at the cursor
  · obtain rfl := h.eq_nil hb
    obtain ⟨hstart, hstop⟩ := h.idle (Bool.not_eq_true _ ▸ hb)
    refine ⟨?_, ?_, hreaches, fun _ => ⟨g, List.mem_singleton_self g, ?_⟩⟩
    · rintro _ ⟨⟩ hlate
      show acc.start.location = g.span.start
      rw [hstart, ← hplace, ← Gain.begins_of_not_late hlate, Gain.begins, if_pos hidle.1]
    · rintro _ ⟨⟩ -
      show acc.start.location = g.place
      rw [hstart, hplace]
    · show acc.stop.location = g.span.stop
      rw [hstop, ← hplace]
      exact Location.le_antisymm hg.2 hidle.2

/-! ## Sequences -/

/-- There is nothing to gain from the attempt. -/
def Attempt.Fruitless (a : Attempt) : Prop := ∀ place, a.gain? place = none

theorem Attempt.Fruitless.span?_eq_none {v : Verdict} (h : (Attempt.settled v).Fruitless) : v.span? = none := by
  cases v with
  | matched | omitted => cases h .origin
  | silent | failed => rfl

section

variable {job : Job} {apply : Applier} {log : List Gain} {s : Session}

namespace Run

variable {run : Run}

/-- What is gained in the session by trying the current part, if it is tried. -/
def gain? (apply : Applier) (run : Run) (s : Session) : Option Gain :=
  match run.parts[run.done]? with
  | none => none
  | some part =>
    if run.done = 0 ∧ s.reenters part run.here.location then none
    else ((apply part run.here).on s).1.gain? run.here.location

/-- What the run gains that is driven on in the session. -/
def gains (job : Job) (apply : Applier) (run : Run) (s : Session) : List Gain :=
  seen (turn job apply) (gain? apply) (run.fuel job) run s

/-- The run of a sequence that has made the gains. -/
structure Gathers (job : Job) (gains : List Gain) (run : Run) : Prop where
  advancing : run.Advancing job
  plain : run.flatten = false
  settled : run.growing = false
  accounts : run.collected.Accounts gains

/-- The gains have been made at the end, unless the sequence comes to nothing. -/
def Ends (job : Job) (gains : List Gain) : Except Attempt Run → Prop
  | .ok last => last.Gathers job gains
  | .error came => came.Fruitless

theorem collect_of_plain {input : List Char} (h : run.flatten = false) (t : Tree) :
    run.collect input t = run.collected.add input t := by
  unfold collect
  rw [h]

theorem absorb_gathers (h : apply.Forward job) (hrun : run.Gathers job log) {a : Attempt}
    (ha : a.From job run.here.location) :
    Eval.Heads (run.absorb job apply a) (Ends job (log ++ (a.gain? run.here.location).toList)) := by
  have hgoes {acc : Accumulator} {others : List Gain} (silence : Option Silence) (hfrom : acc.From run.setting.location)
      (hacc : acc.Accounts others) : (run.next acc silence).Gathers job others :=
    ⟨hrun.advancing.goes rfl rfl hfrom, hrun.plain, hrun.settled, hacc⟩
  have hcollected := hrun.advancing.collected
  unfold absorb
  rcases a with (t | why | span | failure) | (_ | suspension) | error
  · show Eval.Heads (pure (Except.ok (run.next (run.collect job.input t) none))) _
    rw [collect_of_plain hrun.plain]
    exact .pure (hgoes none (hcollected.add t) (hrun.accounts.add ha))
  · refine .pure (hgoes (some why) hcollected ?_)
    rw [show (Attempt.settled (.silent why)).gain? run.here.location = none from rfl, Option.toList_none, List.append_nil]
    exact hrun.accounts
  · exact .pure (hgoes none (hcollected.pass _) (hrun.accounts.pass ha))
  · refine .bind (.skipBetween h hrun.advancing.mode) fun skipped hskipped => ?_
    rcases skipped with error | (_ | further)
    · exact .pure fun _ => rfl
    · exact .pure fun _ => rfl
    · obtain ⟨stop, rfl⟩ := hskipped further rfl
      rw [show (Attempt.settled (.failed failure)).gain? run.here.location = none from rfl, Option.toList_none, List.append_nil]
      exact .pure ⟨hrun.advancing.goes rfl rfl (hcollected.skip stop), hrun.plain, hrun.settled, hrun.accounts.skip stop⟩
  · exact .pure fun _ => rfl
  · exact .pure fun _ => rfl
  · exact .pure fun _ => rfl

theorem turn_gathers (h : apply.Forward job) (hs : s.Forward) (hrun : run.Gathers job log) :
    Agrees (Ends job) (fun log further t => t.Forward ∧ further.Gathers job log) (log ++ (run.gain? apply s).toList)
      ((run.turn job apply).on s) := by
  unfold turn gain?
  cases hp : run.parts[run.done]? with
  | none =>
    rw [Option.toList_none, List.append_nil]
    exact hrun
  | some part =>
    simp only
    show Agrees _ _ _ (Eval.on (if run.done = 0 ∧ s.reenters part run.here.location then _ else _) s)
    by_cases hback : run.done = 0 ∧ s.reenters part run.here.location
    · rw [if_pos hback, if_pos hback]
      exact fun _ => rfl
    · obtain ⟨ha, ht⟩ := h part run.here (hrun.advancing.has part (List.mem_of_getElem? hp)) hrun.advancing.mode s hs
      obtain ⟨hends, ht'⟩ := absorb_gathers h hrun ha _ ht
      rw [if_neg hback, if_neg hback, Eval.on_bind, take, Eval.on_bind]
      generalize (run.absorb job apply _).on _ = r at hends ht' ⊢
      obtain ⟨came | further, t⟩ := r
      · exact hends
      · exact ⟨ht', hends⟩

/-- Driven to the end, the run has made its gains. -/
theorem drive_gathers (h : apply.Forward job) (hs : s.Forward) (hrun : run.Gathers job []) :
    Ends job (run.gains job apply s) ((run.drive job apply (run.fuel job)).on s).1 := by
  rw [drive_eq_takeTurns]
  refine @seen_agrees _ _ _ _ _ _ (Ends job) (fun log run s => s.Forward ∧ run.Gathers job log) ?_ ?_ _ [] _ _ ⟨hs, hrun⟩
  · exact fun _ _ _ hx => turn_gathers h hx.1 hx.2
  · exact fun _ _ _ _ _ => rfl

/-- What comes of a sequence accounts for the stretch of the gains. -/
theorem finish_frames (h : apply.Forward job) (hs : s.Forward) (hrun : run.Gathers job []) {v : Verdict} {span : Span}
    (hv : ((run.finish job apply).on s).1 = .settled v) (hspan : v.span? = some span) :
    ∃ last, ((run.drive job apply (run.fuel job)).on s).1 = .ok last ∧ span = last.collected.span job.input ∧
      span.Frames (run.gains job apply s) fun _ => True := by
  have hends := drive_gathers h hs hrun
  unfold finish at hv
  rw [Eval.on_bind] at hv
  generalize (run.drive job apply (run.fuel job)).on s = r at hends hv ⊢
  obtain ⟨came | last, t⟩ := r
  · cases hv
    exact absurd hspan (by rw [hends.span?_eq_none]; nofun)
  · have hconclude : last.conclude job = v := by
      have hcomplete : ((last.complete job apply).on t).1 = .settled v := hv
      unfold complete at hcomplete
      rw [if_neg (by simp [hends.settled])] at hcomplete
      exact Attempt.settled.inj hcomplete
    rcases last.conclude_cases job with hc | ⟨why, -, -, hc⟩
    · rw [hconclude] at hc
      subst hc
      obtain rfl := Option.some.inj hspan
      rw [Accumulator.extent_tree]
      exact ⟨last, rfl, rfl, hends.accounts.frames⟩
    · rw [hconclude] at hc
      subst hc
      cases hspan

end Run

/-! ## Repetitions -/

namespace Rounds

variable {body : Expr} {bounds : Bounds} {setting : Setting} {rounds : Rounds}

/-- What is gained in the session by the next round, if there may be one. -/
def gain? (apply : Applier) (body : Expr) (bounds : Bounds) (setting : Setting) (rounds : Rounds)
    (s : Session) : Option Gain :=
  if !rounds.mayGoOn bounds then none
  else ((apply body (setting.moved rounds.collected.cursor)).on s).1.gain? rounds.collected.cursor.location

/-- What a repetition gains that is tried in the session. -/
def gains (job : Job) (apply : Applier) (body : Expr) (bounds : Bounds) (setting : Setting) (s : Session) : List Gain :=
  seen (turn job apply body bounds setting) (gain? apply body bounds setting) (job.remaining setting.position + job.slack + 1)
    ⟨.new setting.position, 0⟩ s

/-- The gains have been made at the end, but for one that did not get anywhere, unless the repetition comes to nothing. -/
def Ends (gains : List Gain) : Except Attempt Rounds → Prop
  | .ok last => last.collected.Accounts gains ∨ ∃ before g, gains = before ++ [g] ∧ last.collected.Accounts before ∧
      g.place = last.collected.cursor.location ∧ g.Ahead ∧ g.Idle
  | .error came => came.Fruitless

theorem Ends.frames {last : Rounds} {input : List Char} (h : Ends log (.ok last)) :
    (last.collected.span input).Frames log (¬ ·.Idle) := by
  obtain hacc | ⟨before, g, rfl, hacc, hplace, hg, hidle⟩ := h
  · have hframes : (last.collected.span input).Frames log fun _ => True := hacc.frames
    exact ⟨hframes.start, hframes.late, fun g hg _ => hframes.reaches g hg trivial, hframes.ends⟩
  · exact hacc.frames_concat hplace hg hidle

theorem turn_gathers (h : apply.Forward job) (hbody : job.grammar.Has body) (hmode : job.grammar.Mode setting.skipping)
    (hs : s.Forward) (hacc : rounds.collected.Accounts log) :
    Agrees Ends (fun log further t => t.Forward ∧ further.collected.Accounts log)
      (log ++ (rounds.gain? apply body bounds setting s).toList) ((rounds.turn job apply body bounds setting).on s) := by
  have hnothing : log ++ (none : Option Gain).toList = log := List.append_nil log
  unfold turn gain?
  by_cases hlast : (!rounds.mayGoOn bounds) = true
  · rw [if_pos hlast, if_pos hlast, hnothing]
    exact .inl hacc
  · rw [if_neg hlast, if_neg hlast, Eval.on_bind]
    obtain ⟨ha, ht⟩ := h body (setting.moved rounds.collected.cursor) hbody hmode s hs
    generalize (apply body (setting.moved rounds.collected.cursor)).on s = r at ha ht ⊢
    obtain ⟨(t | (_ | _ | _) | span | failure) | suspension | error, s'⟩ := r
    · simp only
      split
      · exact .inl (hacc.add ha)
      · exact ⟨ht, hacc.add ha⟩
    · exact .inl (hnothing.symm ▸ hacc)
    · exact fun _ => rfl
    · exact fun _ => rfl
    · simp only
      split
      -- the repetition ends before this gain is taken
      · next hle => exact .inr ⟨log, _, rfl, hacc, rfl, ha, rfl, hle⟩
      · exact ⟨ht, hacc.pass ha⟩
    · simp only [Eval.on_bind]
      obtain ⟨hskips, ht'⟩ := @Eval.Heads.skipBetween job apply setting h rounds.collected hmode s' ht
      generalize (skipBetween job apply setting rounds.collected).on s' = skipped at hskips ht' ⊢
      obtain ⟨error | (_ | further), t⟩ := skipped
      · exact fun _ => rfl
      · exact .inl (hnothing.symm ▸ hacc)
      · obtain ⟨stop, rfl⟩ := hskips further rfl
        exact ⟨ht', hnothing.symm ▸ hacc.skip stop⟩
    · exact fun _ => rfl
    · exact fun _ => rfl

/-- Driven to the end, a repetition has made its gains. -/
theorem drive_gathers (h : apply.Forward job) (hbody : job.grammar.Has body) (hmode : job.grammar.Mode setting.skipping)
    (hs : s.Forward) : Ends (gains job apply body bounds setting s)
      ((drive job apply body bounds setting (job.remaining setting.position + job.slack + 1) ⟨.new setting.position, 0⟩).on s).1 := by
  rw [drive_eq_takeTurns]
  refine @seen_agrees _ _ _ _ _ _ Ends (fun log rounds s => s.Forward ∧ rounds.collected.Accounts log) ?_ ?_ _ [] _ _
    ⟨hs, .new setting.position⟩
  · exact fun _ _ _ hx => turn_gathers h hbody hmode hx.1 hx.2
  · exact fun _ _ _ hx => .inl hx.2

/-- Where a round counts, the repetition accounts for what it has collected. -/
theorem span_conclude {last : Rounds} {fallback : Option Tree} {l : Location} {span : Span}
    (hspan : (last.conclude job bounds fallback l).span? = some span) (hpos : 0 < last.matched) :
    span = last.collected.span job.input := by
  unfold conclude at hspan
  rw [if_neg (by omega)] at hspan
  split at hspan
  · cases hspan
  · split at hspan
    · exact (Option.some.inj hspan).symm
    · rw [Verdict.span?, Accumulator.extent_tree] at hspan
      exact (Option.some.inj hspan).symm

/-- The stretch of a repetition that comes to something is that of its gains. -/
theorem try_frames (h : apply.Forward job) (hbody : job.grammar.Has body) (hmode : job.grammar.Mode setting.skipping)
    (hs : s.Forward) {fallback : Option Tree} {v : Verdict} {span : Span}
    (hv : ((tryRepetition job apply body bounds fallback setting).on s).1 = .settled v) (hspan : v.span? = some span) :
    ∃ last, ((drive job apply body bounds setting (job.remaining setting.position + job.slack + 1)
        ⟨.new setting.position, 0⟩).on s).1 = .ok last ∧
      (0 < last.matched → span = last.collected.span job.input) ∧
      (last.collected.span job.input).Frames (gains job apply body bounds setting s) (¬ ·.Idle) := by
  have hends := @drive_gathers job apply s body bounds setting h hbody hmode hs
  unfold tryRepetition at hv
  simp only [Eval.on_bind] at hv
  generalize (drive job apply body bounds setting _ _).on s = r at hends hv ⊢
  obtain ⟨came | last, t⟩ := r
  · cases hv
    exact absurd hspan (by rw [hends.span?_eq_none]; nofun)
  · cases hv
    exact ⟨last, rfl, span_conclude hspan, hends.frames⟩

end Rounds

end

/-- Without matchers from outside, the stretch of a sequence that comes to something begins where the first of its
gains does and ends where the last one ends, whatever is skipped before and after. So does the stretch of a
repetition, but for a gain that ends it without getting anywhere. A first gain that was left out from behind input
that was skipped is the exception: the stretch then begins where that gain was tried. A parse begins in a forward
session, and whatever it tries leaves one. -/
theorem Job.bounds_exclude_skipping {job : Job} (hc : ∀ key, ¬ job.grammar.Has (.external key)) (levels : Nat) :
    Session.start.Forward ∧
    (∀ e setting s, job.grammar.Has e → job.grammar.Mode setting.skipping → s.Forward →
      ((applyWithin job levels e setting).on s).2.Forward) ∧
    (∀ parts setting s v span, job.grammar.Has (.sequence parts) → job.grammar.Mode setting.skipping → s.Forward →
      ((evaluate job (applyWithin job levels) (.sequence parts) setting).on s).1 = .settled v → v.span? = some span →
      ∃ last, (((Run.new parts false setting 0).drive job (applyWithin job levels)
          ((Run.new parts false setting 0).fuel job)).on s).1 = .ok last ∧ span = last.collected.span job.input ∧
        span.Frames ((Run.new parts false setting 0).gains job (applyWithin job levels) s) fun _ => True) ∧
    ∀ body bounds fallback setting s v span, job.grammar.Has (.repetition body bounds fallback) →
      job.grammar.Mode setting.skipping → s.Forward →
      ((evaluate job (applyWithin job levels) (.repetition body bounds fallback) setting).on s).1 = .settled v →
      v.span? = some span →
      ∃ last, ((Rounds.drive job (applyWithin job levels) body bounds setting (job.remaining setting.position + job.slack + 1)
          ⟨.new setting.position, 0⟩).on s).1 = .ok last ∧
        (0 < last.matched → span = last.collected.span job.input) ∧
        (last.collected.span job.input).Frames (Rounds.gains job (applyWithin job levels) body bounds setting s) (¬ ·.Idle) := by
  have hforward : (applyWithin job levels).Forward job := applyWithin_forward hc levels
  refine ⟨Session.forward_start, fun e setting s he hmode hs => (hforward e setting he hmode s hs).2, ?_, ?_⟩
  · intro parts setting s v span he hmode hs hv hspan
    have hrun : (Run.new parts false setting 0).Gathers job [] :=
      ⟨⟨fun part hp => he.part hp, hmode, .new setting.position⟩, rfl, rfl, .new setting.position⟩
    exact Run.finish_frames hforward hs hrun hv hspan
  · intro body bounds fallback setting s v span he hmode hs hv hspan
    exact Rounds.try_frames hforward (he.part List.mem_cons_self) hmode hs hv hspan

/-! ## Letters -/

namespace Grammar

/-- A word with spaces between tokens. -/
def ofSpaced (word : Expr) : Grammar where
  start := "s"
  rules := [("s", word)]
  skipper := some (.literal [' '])
  overrides := []
  productions := []
  kinds := .empty

/-- The word in a text, tried from the beginning. -/
def spaced (word : Expr) (text : String) : Job := .new (ofSpaced word) (.rule "s") .standard .nothing text.toList

/-- Two letters. -/
def letterPair : List Expr := [.literal ['a'], .literal ['b']]

theorem bounds_exclude_skipping_letterPairs :
    let job := spaced (.repetition (.sequence letterPair) ⟨1, none⟩ none) " a b  a b "
    (∀ key, ¬ job.grammar.Has (.external key)) ∧
    (∃ t, ((evaluate job (applyWithin job 8) (.sequence letterPair) .start).on .start).1 = .settled (.matched t) ∧
      t.extent.Frames ((Run.new letterPair false .start 0).gains job (applyWithin job 8) .start) (fun _ => True) ∧
      t.extent.text = "a b".toList) ∧
    ∃ last, ((Rounds.drive job (applyWithin job 8) (.sequence letterPair) ⟨1, none⟩ .start
        (job.remaining .origin + job.slack + 1) ⟨.new .origin, 0⟩).on .start).1 = .ok last ∧
      (last.collected.span job.input).Frames
        (Rounds.gains job (applyWithin job 8) (.sequence letterPair) ⟨1, none⟩ .start .start) (¬ ·.Idle) ∧
      (Rounds.gains job (applyWithin job 8) (.sequence letterPair) ⟨1, none⟩ .start .start).map (·.span.text) =
        ["a b".toList, "a b".toList] := by
  intro job
  have hc : ∀ key, ¬ job.grammar.Has (.external key) := (textual_of_check (by decide +kernel)).internal
  have hpairs : job.grammar.Has (.repetition (.sequence letterPair) ⟨1, none⟩ none) :=
    .body (show (ofSpaced _).rule? "s" = some _ from rfl)
  have hpair : job.grammar.Has (.sequence letterPair) := hpairs.part List.mem_cons_self
  obtain ⟨hstart, -, hsequences, hrepetitions⟩ := Job.bounds_exclude_skipping hc 8
  refine ⟨hc, ?_, ?_⟩
  · obtain ⟨t, ht, htext⟩ := Option.map_eq_some_iff.1 (show
      (((evaluate job (applyWithin job 8) (.sequence letterPair) .start).on .start).1.tree?.map (·.extent.text)) =
        some "a b".toList by decide +kernel)
    have hmatched := Attempt.tree?_eq_some ht
    obtain ⟨-, -, -, hframes⟩ := hsequences _ .start .start _ _ hpair .standard hstart hmatched rfl
    exact ⟨t, hmatched, hframes, htext⟩
  · obtain ⟨t, ht, -⟩ := Option.map_eq_some_iff.1 (show
      (((evaluate job (applyWithin job 8) (.repetition (.sequence letterPair) ⟨1, none⟩ none) .start).on .start).1.tree?.map
        (·.extent.text)) = some "a b  a b".toList by decide +kernel)
    obtain ⟨last, hlast, -, hframes⟩ :=
      hrepetitions _ _ none .start .start _ _ hpairs .standard hstart (Attempt.tree?_eq_some ht) rfl
    exact ⟨last, hlast, hframes, by decide +kernel⟩

/-- A letter behind others that are left out. -/
def trimmedLetter : List Expr := [.repetition (.omission (.literal ['a'])) ⟨1, none⟩ none, .literal ['b']]

/-- The end of the text. -/
def ending : Pattern := (Pattern.ofSource? ['\\', 'z']).get (by decide +kernel)

/-- A letter, or nothing at the end of the text. -/
def letterOrEnd : Expr := .choice [.literal ['a'], .omission (.pattern ending)]

/-- What is left out first begins behind spaces that a repetition skipped, and yet they are taken for a part of the
stretch. And where letters are repeated up to the end of the text, the stretch stops before the spaces in front of
what is left out last. -/
theorem bounds_include_skipping :
    (let job := spaced (.sequence trimmedLetter) "  ab"
    (∀ key, ¬ job.grammar.Has (.external key)) ∧
      (((evaluate job (applyWithin job 8) (.sequence trimmedLetter) .start).on .start).1.gain? .origin).map (·.span) =
        some ⟨⟨0, 0⟩, ⟨0, 4⟩, "  ab".toList⟩ ∧
      ((Run.new trimmedLetter false .start 0).gains job (applyWithin job 8) .start).head? =
        some ⟨⟨0, 0⟩, ⟨⟨0, 2⟩, ⟨0, 3⟩, ['a']⟩, true⟩) ∧
    let job := spaced (.repetition letterOrEnd ⟨1, none⟩ none) "a "
    (∀ key, ¬ job.grammar.Has (.external key)) ∧
      (((evaluate job (applyWithin job 8) (.repetition letterOrEnd ⟨1, none⟩ none) .start).on .start).1.gain? .origin).map
        (·.span) = some ⟨⟨0, 0⟩, ⟨0, 1⟩, ['a']⟩ ∧
      (Rounds.gains job (applyWithin job 8) letterOrEnd ⟨1, none⟩ .start .start).getLast? =
        some ⟨⟨0, 2⟩, .empty ⟨0, 2⟩, true⟩ := by
  refine ⟨⟨?_, by decide +kernel, by decide +kernel⟩, ?_, by decide +kernel, by decide +kernel⟩
  · exact (textual_of_check (by decide +kernel)).internal
  · exact (textual_of_check (by decide +kernel)).internal

end Grammar

end Packrat

/-
A parse keeps to every lawful contract: in a session whose remembered verdicts are fine, whatever
comes of trying an expression of the grammar is fine, and so is what is remembered afterwards. This
is shown once and for all, operator by operator and then by induction on the levels of nesting.
-/
import Packrat.Proofs.Contract.Runs

namespace Packrat

open Stance

variable {job : Job} {C : Contract job}

namespace Contract

/-! ## Choices -/

section

variable {m : Mark} {depth : Nat} {apply : Applier} {e : Expr} {p : Position} {before alternatives : List Expr} {tried : Tried}

theorem Signal.escapes {s : Option Suspension} (h : C.Signal m e p s) : ∃ place, Escapes job.grammar m e p.location place := by
  cases s with
  | none => exact ⟨none, h⟩
  | some s =>
    obtain ⟨o, -, h⟩ := h
    exact ⟨some o.location, h⟩

/-- What a choice keeps in mind came of the alternatives before. -/
structure Minds (C : Contract job) (m : Mark) (p : Position) (before : List Expr) (tried : Tried) : Prop where
  furthest : ∀ f, tried.furthest = some f → C.Ends f.stop
  recursion : ∀ s, tried.recursion = some s → ∃ e ∈ before, C.Signal m e p s
  /-- If none has failed then all gave a signal. -/
  escape : tried.furthest = none → ∀ e ∈ before, ∃ place, Escapes job.grammar m e p.location place

namespace Minds

theorem nothing : C.Minds m p [] .nothing := ⟨nofun, nofun, fun _ _ h => nomatch h⟩

theorem failed (h : C.Minds m p before tried) {f : Failure} (hf : C.Ends f.stop) :
    C.Minds m p (before ++ [e]) (tried.failed f) := by
  have hrecursion (s : Option Suspension) (hs : tried.recursion = some s) :
      ∃ e' ∈ before ++ [e], C.Signal m e' p s := by
    obtain ⟨e', he', hs'⟩ := h.recursion s hs
    exact ⟨e', List.mem_append_left _ he', hs'⟩
  unfold Tried.failed
  split
  · refine ⟨?_, hrecursion, nofun⟩
    rintro _ ⟨⟩
    exact hf
  · next hall =>
    refine ⟨h.furthest, hrecursion, fun hn => ?_⟩
    rw [hn] at hall
    exact absurd rfl hall

theorem signalled (h : C.Minds m p before tried) {s : Option Suspension} (hs : C.Signal m e p s) :
    C.Minds m p (before ++ [e]) { tried with recursion := some s } := by
  refine ⟨h.furthest, ?_, fun hn e' he' => ?_⟩
  · rintro _ ⟨⟩
    exact ⟨e, by simp, hs⟩
  · rcases List.mem_append.1 he' with he' | he'
    · exact h.escape hn e' he'
    · rw [List.mem_singleton.1 he']
      exact hs.escapes

/-- A choice without further alternatives has failed, or gives a signal on. -/
theorem exhausted (hC : C.Lawful) (h : C.Minds m p alternatives tried) (hc : job.grammar.Has (.choice alternatives))
    (hat : C.At p) (rest : List Char) :
    C.Comes (C.Signal m (.choice alternatives) p) (.choice alternatives) p (tried.exhausted rest p.location) := by
  unfold Tried.exhausted
  split
  · next f hf => exact hC.plain.failed.2 (h.furthest f hf)
  · next s hn hs =>
    obtain ⟨e, he, hsignal⟩ := h.recursion s hs
    cases s with
    | none =>
      show Escapes job.grammar m _ p.location none
      exact .choice (h.escape hn) he hsignal
    | some s =>
      obtain ⟨o, hawaits, hescapes⟩ := hsignal
      refine ⟨o, ?_, Escapes.choice (h.escape hn) he hescapes⟩
      rw [← List.append_nil s]
      exact hawaits.append (.choice hc he .done)
  · exact hC.plain.failed.2 (hC.plain.ends hat)

end Minds

/-- The alternatives of a choice are tried in order. -/
theorem tryChoice_kept (hC : C.Lawful) (h : C.KeptBy m depth apply) {setting : Setting}
    (ha : C.Admits m (.choice alternatives) setting) : ∀ {before others : List Expr} {tried : Tried},
      alternatives = before ++ others → C.Minds m setting.position before tried →
      (C.stance m depth).Yields True (tryChoice job apply setting others tried)
        (C.Comes (C.Signal m (.choice alternatives) setting.position) (.choice alternatives) setting.position)
  | before, [], tried, halt, hmind => by
    rw [List.append_nil] at halt
    subst halt
    exact pure (hmind.exhausted hC ha.has ha.sits _)
  | before, e :: others, tried, halt, hmind => by
    have hmem : e ∈ alternatives := by simp [halt]
    have halt' : alternatives = (before ++ [e]) ++ others := by simp [halt]
    unfold tryChoice
    refine bind (h e setting ⟨ha.has.part hmem, ha.sits, ha.mode, ha.behind⟩) fun a hcame => ?_
    cases a with
    | settled v =>
      cases v with
      | matched t =>
        have hfine := hC.plain.chosen ha.has hmem hcame
        simp only
        split
        · next suspension hs =>
          obtain ⟨e', he', hsignal⟩ := hmind.recursion _ hs
          obtain ⟨first, later, hbefore⟩ := List.append_of_mem he'
          have hplace : alternatives = first ++ e' :: (later ++ e :: others) := by
            rw [halt, hbefore, List.append_assoc, List.cons_append]
          exact plantSeed_kept hC h ha.behind ha.has ha.sits hplace (by simp) hsignal hcame
        · exact pure hfine
      | failed failure =>
        refine bind (Q := fun _ => True) .emit fun _ _ => ?_
        refine bind (Q := fun _ => True) (.count (fun _ => Nat.le_refl _) fun _ => Nat.le_refl _) fun _ _ => ?_
        exact tryChoice_kept hC h ha halt' (hmind.failed (hC.plain.failed.1 hcame))
      | silent | omitted => exact pure (hC.plain.chosen ha.has hmem hcame)
    | recursion s => exact tryChoice_kept hC h ha halt' (hmind.signalled hcame)
    | broken error => exact pure trivial

end

/-! ## Repetitions -/

end Contract

/-- The rounds of a repetition, with those that it came to if something else decides. -/
def Rounds.course (job : Job) (apply : Applier) (body : Expr) (bounds : Bounds) (setting : Setting) :
    (fuel : Nat) → Rounds → Eval (Rounds × Option Attempt)
  | 0, rounds => return (rounds, none)
  | fuel + 1, rounds => do
    if !rounds.mayGoOn bounds then return (rounds, none)
    let cursor := rounds.collected.cursor
    match ← apply body (setting.moved cursor) with
    | .settled (.matched tree) =>
      let further := rounds.next (rounds.collected.add job.input tree)
      if tree.extent.stop ≤ cursor.location then return (further, none)
      course job apply body bounds setting fuel further
    | .settled (.omitted span) =>
      if span.stop ≤ cursor.location then return (rounds, none)
      course job apply body bounds setting fuel (rounds.next (rounds.collected.pass job.input span.stop))
    | .settled (.silent .tookNothing) => return (rounds, none)
    | .settled (.silent why) => return (rounds, some (.settled (.silent why)))
    | .settled (.failed _) =>
      match ← skipBetween job apply setting rounds.collected with
      | .ok (some collected) => course job apply body bounds setting fuel { rounds with collected }
      | .ok none => return (rounds, none)
      | .error error => return (rounds, some (.broken error))
    | .recursion _ => return (rounds, some (.recursion none))
    | .broken error => return (rounds, some (.broken error))

/-- The rounds themselves are all that the course adds. -/
theorem Rounds.drive_eq_course {apply : Applier} {body : Expr} {bounds : Bounds} {setting : Setting} :
    ∀ {fuel : Nat} {rounds : Rounds}, rounds.drive job apply body bounds setting fuel =
      rounds.course job apply body bounds setting fuel >>= fun r => pure (r.2.elim (.ok r.1) .error)
  | 0, _ => rfl
  | fuel + 1, rounds => by
    unfold Rounds.drive Rounds.course
    simp only
    split
    · rw [pure_bind]
      rfl
    · simp only [bind_assoc]
      congr
      funext a
      split
      · next t =>
        by_cases h : t.extent.stop ≤ rounds.collected.cursor.location
        · simp only [if_pos h, pure_bind, Option.elim_none]
        · simp only [if_neg h]
          exact drive_eq_course
      · next span =>
        by_cases h : span.stop ≤ rounds.collected.cursor.location
        · simp only [if_pos h, pure_bind, Option.elim_none]
        · simp only [if_neg h]
          exact drive_eq_course
      · simp only [pure_bind, Option.elim_none]
      · simp only [pure_bind, Option.elim_some]
      · simp only [bind_assoc]
        congr
        funext skipped
        split
        · exact drive_eq_course
        · simp only [pure_bind, Option.elim_none]
        · simp only [pure_bind, Option.elim_some]
      · simp only [pure_bind, Option.elim_some]
      · simp only [pure_bind, Option.elim_some]

namespace Contract

section

variable {m : Mark} {depth : Nat} {apply : Applier} {e body : Expr} {bounds : Bounds} {fallback : Option Tree}
  {setting : Setting}

/-- What decides for a repetition before its rounds do. -/
def Decides (C : Contract job) (m : Mark) (e body : Expr) (bounds : Bounds) (p : Position) (rounds : Rounds) :
    Attempt → Prop
  | .settled v => ∃ why, why ≠ .tookNothing ∧ v = .silent why ∧ rounds.mayGoOn bounds = true ∧
    C.Fine body rounds.collected.cursor (.silent why)
  | .recursion suspension => C.Signal m e p suspension
  | .broken _ => True

/-- Rounds are tried until one does not match or something else decides. -/
theorem course_kept (hC : C.Lawful) (h : C.KeptBy m depth apply)
    (ha : C.Admits m (.repetition body bounds fallback) setting) : ∀ (fuel : Nat) {rounds : Rounds},
      C.Turning body bounds setting.position rounds → setting.location ≤ rounds.collected.cursor.location →
      (C.stance m depth).Yields True (rounds.course job apply body bounds setting fuel) fun (rounds, other) =>
        C.Turning body bounds setting.position rounds ∧
          ∀ a, other = some a → C.Decides m (.repetition body bounds fallback) body bounds setting.position rounds a
  | 0, rounds, ht, _ => pure ⟨ht, nofun⟩
  | fuel + 1, rounds, ht, hle => by
    have hstay (r : Rounds) (ht : C.Turning body bounds setting.position r) :
        C.Turning body bounds setting.position r ∧ ∀ a, none = some a →
          C.Decides m (.repetition body bounds fallback) body bounds setting.position r a := ⟨ht, nofun⟩
    unfold Rounds.course
    refine .ite (fun _ => pure (hstay rounds ht)) fun hgo => ?_
    have hgo : rounds.mayGoOn bounds = true := by simpa using hgo
    have hbody : C.Admits m body (setting.moved rounds.collected.cursor) :=
      ⟨ha.has.part List.mem_cons_self, hC.turns.cursor ht, ha.mode, ha.behind.mono hle⟩
    refine bind (h body _ hbody) fun a hcame => ?_
    split
    · next t =>
      have hfurther := hC.turns.matched ht hgo hcame
      refine .ite (fun _ => pure (hstay _ hfurther)) fun _ => ?_
      exact course_kept hC h ha fuel hfurther (Location.le_trans hle (Position.le_moveTo _ _))
    · next span =>
      refine .ite (fun _ => pure (hstay rounds ht)) fun _ => ?_
      exact course_kept hC h ha fuel (hC.turns.omitted ht hgo hcame) (Location.le_trans hle (Position.le_moveTo _ _))
    · exact pure (hstay rounds ht)
    · next why hwhy =>
      refine pure ⟨ht, ?_⟩
      rintro _ ⟨⟩
      exact ⟨why, fun he => hwhy (by rw [he]), rfl, hgo, hcame⟩
    · refine bind (skipBetween_kept h ha.mode (hC.turns.cursor ht) (ha.behind.mono hle)) fun skipped hs => ?_
      split
      · next collected =>
        obtain ⟨stop, hskips, rfl⟩ := hs
        refine course_kept hC h ha fuel (hC.turns.skipped ht hskips) (Location.le_trans hle ?_)
        rw [Accumulator.cursor_skip]
        exact Position.le_moveTo _ _
      · exact pure (hstay rounds ht)
      · refine pure ⟨ht, ?_⟩
        rintro _ ⟨⟩
        trivial
    · next suspension =>
      refine pure ⟨ht, ?_⟩
      rintro _ ⟨⟩
      obtain ⟨place, hescapes⟩ := hcame.escapes
      exact hescapes.returns_part (fun _ => nofun) List.mem_cons_self ha.behind hle
    · refine pure ⟨ht, ?_⟩
      rintro _ ⟨⟩
      trivial

theorem tryRepetition_kept (hC : C.Lawful) (h : C.KeptBy m depth apply)
    (ha : C.Admits m (.repetition body bounds fallback) setting) :
    (C.stance m depth).Yields True (tryRepetition job apply body bounds fallback setting)
      (C.Comes (C.Signal m (.repetition body bounds fallback) setting.position) (.repetition body bounds fallback)
        setting.position) := by
  unfold tryRepetition
  simp only [Rounds.drive_eq_course, bind_assoc, pure_bind]
  refine bind (course_kept hC h ha _ (hC.turns.new ha.sits) (Location.le_refl _)) fun r hr => ?_
  obtain ⟨rounds, other⟩ := r
  obtain ⟨ht, hother⟩ := hr
  cases other with
  | none => exact pure (hC.turns.concluded ha.has ha.sits ht)
  | some a =>
    refine pure ?_
    cases a with
    | settled v =>
      obtain ⟨why, hwhy, rfl, hgo, hfine⟩ := hother _ rfl
      exact hC.turns.signalled ha.has ht hgo hwhy hfine
    | recursion s => exact hother _ rfl
    | broken error => trivial

end

/-! ## Expressions -/

section

variable {m : Mark} {depth : Nat} {apply : Applier} {e : Expr} {setting : Setting}

theorem trySequence_kept (hC : C.Lawful) (h : C.KeptBy m depth apply) {parts : List Expr} {flatten : Bool}
    (ha : C.Admits m (Run.new parts flatten setting 0).expr setting) :
    (C.stance m depth).Yields True (trySequence job apply parts flatten setting)
      (C.Comes (C.Signal m (Run.new parts flatten setting 0).expr setting.position)
        (Run.new parts flatten setting 0).expr setting.position) := by
  let origin := Run.new parts flatten setting 0
  have hon : C.On 0 origin origin := .new hC ha
  -- a run that goes on as the sequence may be set aside, or wait for a part of it
  refine finish_kept hC h ha.behind (fun run r hrun hp hd hm => ?_) (fun run part s hrun hp hs => ?_) hon
  · have hset : run.setting = setting := hrun.continues.setting
    have hexpr : run.expr = origin.expr := hrun.continues.expr
    have hfirst : ∃ rest, run.parts = .rule r :: rest := by
      rw [hd] at hp
      cases hparts : run.parts with
      | nil => simp [hparts] at hp
      | cons first rest => exact ⟨rest, by simpa [hparts] using hp⟩
    obtain ⟨rest, hparts⟩ := hfirst
    refine ⟨run.collected.cursor, ?_, ?_⟩
    · have hfeeds : C.Feeds run.expr run.setting.position [] origin.expr setting.position := by
        rw [hexpr, hset]
        exact .done
      refine .intro { hrun with continues := .refl _ } hp hd hfeeds
    · subst hm
      rw [← hexpr]
      refine Escapes.itself (by rw [run.chain?_expr, hparts]) ha.behind ?_
      have hforward := hrun.forward
      rwa [hset] at hforward
  · have hset : run.setting = setting := hrun.continues.setting
    have hexpr : run.expr = origin.expr := hrun.continues.expr
    have hmem : part ∈ run.parts := List.mem_of_getElem? hp
    have hforward : setting.location ≤ run.collected.cursor.location := by
      have := hrun.forward
      rwa [hset] at this
    have hfar : run.collected.cursor.location ≠ setting.location → part ∈ run.parts.tail ∨ job.grammar.Skipping := by
      intro hne
      cases hd : run.done with
      | zero => exact .inr (hrun.still hd (by rwa [hset]))
      | succ n =>
        rw [hd] at hp
        refine .inl ?_
        rw [List.mem_iff_getElem?]
        exact ⟨n, by rw [List.getElem?_tail]; exact hp⟩
    have hchain : ∀ {place}, Escapes job.grammar m part run.collected.cursor.location place →
        Escapes job.grammar m origin.expr setting.location place := by
      intro place hescapes
      rw [← hexpr]
      exact hescapes.chain run.chain?_expr hmem ha.behind hforward hfar
    cases s with
    | none =>
      show Escapes job.grammar m _ setting.location none
      exact hchain hs
    | some suspension =>
      obtain ⟨o, hawaits, hescapes⟩ := hs
      refine ⟨o, hawaits.append ?_, hchain hescapes⟩
      refine .sequence { hrun with continues := .refl _ } hp ?_
      rw [hexpr, hset]
      exact .done

theorem tryRule_kept (hC : C.Lawful) {name : String} (h : C.KeptBy (some (name, setting.location)) depth apply)
    (ha : C.Admits m (.rule name) setting) :
    (C.stance (some (name, setting.location)) depth).Yields True (tryRule job apply name setting)
      (C.Comes (C.Signal m (.rule name) setting.position) (.rule name) setting.position) := by
  unfold tryRule
  split
  · exact pure trivial
  · next body hb =>
    refine bind (Q := fun _ => True) .emit fun _ _ => ?_
    refine bind (Q := fun _ => True) (.count (fun _ => Nat.le_refl _) fun _ => Nat.le_refl _) fun _ _ => ?_
    refine bind (h body ⟨setting.position, some name, job.skippingIn name setting.skipping⟩
      ⟨.body hb, ha.sits, ha.mode.skippingIn name, Mark.behind_entered⟩) fun a hcame => ?_
    refine bind (Q := fun _ => True) .emit fun _ _ => pure ?_
    refine (wrapAttempt_comes hC hb hcame).imp fun s _ hs => ?_
    obtain ⟨s', hs', rfl⟩ := hs
    cases s' with
    | none =>
      show Escapes job.grammar m _ setting.location none
      exact .rule hb hs'
    | some suspension =>
      obtain ⟨o, hawaits, hescapes⟩ := hs'
      exact ⟨o, hawaits.append (.wrapping ha.has hb .done), hescapes.rule hb⟩

/-- What looks at what came of another expression passes recursion signals on without suspension. -/
theorem looked {body : Expr} {a : Attempt} {f : Attempt → Attempt} (ha : C.Admits m e setting)
    (hparts : e.parts = [body]) (hn : ∀ alternatives, e ≠ .choice alternatives)
    (hcame : C.Comes (C.Signal m body setting.position) body setting.position a)
    (hf : ∀ v, C.Fine body setting.position v → C.Comes (C.Signal m e setting.position) e setting.position (f (.settled v)))
    (hr : ∀ s, f (.recursion s) = .recursion none) (hb : ∀ error, f (.broken error) = .broken error) :
    C.Comes (C.Signal m e setting.position) e setting.position (f a) := by
  cases a with
  | settled v => exact hf v hcame
  | recursion s =>
    rw [hr]
    obtain ⟨place, hescapes⟩ := hcame.escapes
    exact hescapes.returns_part hn (by simp [hparts]) ha.behind (Location.le_refl _)
  | broken error =>
    rw [hb]
    trivial

theorem evaluate_kept (hC : C.Lawful) (h : C.KeptBy (m.inside e.reference? setting.location) depth apply)
    (ha : C.Admits m e setting) :
    (C.stance (m.inside e.reference? setting.location) depth).Yields True (evaluate job apply e setting)
      (C.Comes (C.Signal m e setting.position) e setting.position) := by
  cases e with
  | literal text => exact pure (hC.plain.literal ha.has ha.sits)
  | pattern p => exact pure (hC.plain.pattern ha.has ha.sits)
  | external key => exact pure (hC.plain.external ha.has ha.sits)
  | rule name => exact tryRule_kept hC h ha
  | sequence parts => exact trySequence_kept hC h ha
  | merge parts => exact trySequence_kept hC h ha
  | choice alternatives => exact tryChoice_kept hC h ha rfl .nothing
  | repetition body bounds fallback => exact tryRepetition_kept hC h ha
  | ahead body =>
    refine bind (h body setting ⟨ha.has.part List.mem_cons_self, ha.sits, ha.mode, ha.behind⟩) fun a hcame => pure ?_
    refine looked ha rfl (fun _ => nofun) hcame (fun v _ => ?_) (fun _ => rfl) fun _ => rfl
    unfold aheadAttempt
    simp only
    split
    · exact hC.plain.ahead ha.has
    · exact hC.plain.failed.2 (hC.plain.ends ha.sits)
  | notAhead body =>
    refine bind (h body setting ⟨ha.has.part List.mem_cons_self, ha.sits, ha.mode, ha.behind⟩) fun a hcame => pure ?_
    refine looked ha rfl (fun _ => nofun) hcame (fun v _ => ?_) (fun _ => rfl) fun _ => rfl
    unfold notAheadAttempt
    simp only
    split
    · exact hC.plain.failed.2 (hC.plain.ends ha.sits)
    · exact hC.plain.notAhead ha.has
  | omission body =>
    refine bind (h body setting ⟨ha.has.part List.mem_cons_self, ha.sits, ha.mode, ha.behind⟩) fun a hcame => pure ?_
    refine looked ha rfl (fun _ => nofun) hcame (fun v hv => ?_) (fun _ => rfl) fun _ => rfl
    obtain ⟨w, hw⟩ : ∃ w, omissionAttempt job setting (.settled v) = .settled w := by
      unfold omissionAttempt
      split <;> simp_all
    rw [hw]
    exact hC.plain.omission ha.has ha.sits hv hw

/-- Remembering a verdict lets suspended work wait for it. -/
theorem Comes.awaiting {a : Attempt} (h : C.Comes (C.Signal m e setting.position) e setting.position a) :
    C.Comes (C.Signal m e setting.position) e setting.position (a.awaiting job (.of e setting)) := by
  cases a with
  | settled v => exact h
  | broken error => trivial
  | recursion s =>
    cases s with
    | none => exact h
    | some suspension =>
      unfold Attempt.awaiting
      simp only
      split
      · obtain ⟨o, hawaits, hescapes⟩ := h
        exact ⟨o, hawaits.append (.memory rfl rfl .done), hescapes⟩
      · exact h

/-- Whatever is tried keeps to a lawful contract. -/
theorem Lawful.kept (hC : C.Lawful) : ∀ (levels : Nat) (m : Mark) (depth : Nat), C.KeptBy m depth (applyWithin job levels)
  | 0, m, depth => fun e setting ha => pure (hC.plain.failed.2 (hC.plain.ends ha.sits))
  | levels + 1, m, depth => by
    intro e setting ha
    refine .remembering (Q := C.Comes (C.Signal m e setting.position) e setting.position) (fun _ _ mem v hmem hv => ?_) ?_
      ((evaluate_kept hC (hC.kept levels _ _) ha).guard fun _ => trivial)
      (fun _ v mem hv hmem => Remembers.insert hC ha.has rfl rfl ha.sits hv hmem) fun _ a hcame => hcame.awaiting
    · obtain ⟨q, ⟨hhas, hq⟩, hql, hqe, -⟩ := hmem.find hv
      exact hC.plain.same ha.has hhas hqe (hq _ ha.sits hql.symm)
    · refine .given (fun _ => id) fun ⟨_, name, he, hm⟩ => ?_
      refine bind (Q := fun _ => True) .reportReentry fun _ _ => pure ?_
      subst he hm
      exact Escapes.reference

end

/-! ## Parses -/

section

variable {g : Grammar} {options : Options} {externals : Externals} {input : List Char}
  {C : Contract (.new g (.rule g.start) options externals input)}

/-- What comes of the start rule is fine. -/
theorem Lawful.comes (hC : C.Lawful) (hat : C.At .origin) :
    C.Comes (C.Signal none (.rule g.start) .origin) (.rule g.start) .origin
      ((apply (.new g (.rule g.start) options externals input) (.rule g.start) .start).on .start).1 := by
  have hadmits : C.Admits none (.rule g.start) .start := ⟨.start, hat, .standard, nofun⟩
  have hfits : (C.stance none 0).Fits .start := ⟨Memory.keeps_empty, rfl, rfl, fun _ => Nat.le_refl _⟩
  rcases (hC.kept options.depthLimit none 0 _ _ hadmits .start).2 trivial hfits with hrung | ⟨hcomes, -⟩
  · exact hrung.elim
  · exact hcomes

/-- What a parse gives stands for a verdict that is fine. -/
theorem Lawful.parse (hC : C.Lawful) (hat : C.At .origin) {t : Tree}
    (ht : (g.parse options externals input).result = .ok t) :
    ∃ v, C.Fine (.rule g.start) .origin v ∧ Job.resultOf (.rule g.start) (.settled v) = .ok t := by
  let job := Job.new g (.rule g.start) options externals input
  have ht : Job.resultOf _ ((apply job (.rule g.start) .start).on .start).1 = .ok t := ht
  have hcomes := hC.comes hat
  generalize ((apply job (.rule g.start) .start).on .start).1 = a at ht hcomes
  cases a with
  | settled v => exact ⟨v, hcomes, ht⟩
  | recursion | broken => cases ht

/-- The failure of a parse stops where failures may. -/
theorem Lawful.mismatch (hC : C.Lawful) (hat : C.At .origin) {f : Failure}
    (hf : (g.parse options externals input).result = .error (.mismatch f)) : C.Ends f.stop := by
  let job := Job.new g (.rule g.start) options externals input
  have hf : Job.resultOf _ ((apply job (.rule g.start) .start).on .start).1 = .error (.mismatch f) := hf
  have hcomes := hC.comes hat
  generalize ((apply job (.rule g.start) .start).on .start).1 = a at hf hcomes
  cases a with
  | settled v =>
    cases v with
    | failed failure =>
      cases hf
      exact hC.plain.failed.1 hcomes
    | matched | silent | omitted => cases hf
  | recursion | broken => cases hf

end

end Contract

end Packrat

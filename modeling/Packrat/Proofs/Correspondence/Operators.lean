/-
What a parse does with corresponding expressions. If a correspondence holds between two jobs, then corresponding
expressions come to corresponding attempts in corresponding sessions, and leave such sessions. This is shown
for each kind of expression, and then by induction on the levels of nesting.
-/
import Packrat.Proofs.Correspondence.Steps

namespace Packrat.Correspondence

variable {K : Correspondence} {job job' : Job}

namespace Holds

variable (hK : K.Holds job job')
include hK

/-! ## Sequences -/

section

variable {apply apply' : Applier} {run run' : Run} {setting setting' : Setting} {acc acc' : Accumulator} {a a' : Attempt}
  {t t' : Tree}

theorem skipStop? (ha : K.Attempts a a') : Option.Rel K.location a.skipStop? a'.skipStop? := by
  cases ha with
  | settled hv =>
    cases hv with
    | matched ht => exact .some (hK.extent ht).stop
    | omitted hs => exact .some hs.stop
    | silent | failed => exact .none
  | recursion | broken => exact .none

theorem skipBetween (h : K.Carries apply apply') (hsetting : K.Settings setting setting') (hacc : K.Collections acc acc') :
    K.Steps (ExceptRel Eq (Option.Rel K.Collections)) (Packrat.skipBetween job apply setting acc)
      (Packrat.skipBetween job' apply' setting' acc') := by
  have hskipper := hK.skipper hsetting.skipping
  unfold Packrat.skipBetween
  generalize job.skipper? setting.skipping = skipper at hskipper
  generalize job'.skipper? setting'.skipping = skipper' at hskipper
  cases hskipper with
  | none => exact .pure (.ok .none)
  | some he =>
    refine .bind (h _ _ _ _ he ⟨hacc.cursor, hsetting.rule, hsetting.skipping⟩) fun a a' ha => ?_
    have hskips : ExceptRel (Eq (α := GrammarError)) (Option.Rel K.Collections)
        (.ok (a.skipStop?.bind (acc.skip? job.input))) (.ok (a'.skipStop?.bind (acc'.skip? job'.input))) := by
      have hstop := hK.skipStop? ha
      generalize a.skipStop? = stop at hstop
      generalize a'.skipStop? = stop' at hstop
      cases hstop with
      | none => exact .ok .none
      | some hl => exact .ok (hK.skip? hacc hl)
    cases ha with
    | settled | recursion => exact .pure hskips
    | broken error => exact .pure (.error rfl)

theorem collect (h : K.Runs run run') (ht : K.tree t t') :
    K.Collections (run.collect job.input t) (run'.collect job'.input t') := by
  unfold Run.collect
  rw [h.flatten]
  have hitems := hK.items ht
  have hextent := hK.extent ht
  cases hflatten : run'.flatten with
  | false => exact hK.add h.collected ht
  | true =>
    cases t <;> cases t' <;> cases hitems
    case true.list.list.some hitems => exact hK.pass (hK.addAll hitems h.collected) hextent.stop
    all_goals exact hK.add h.collected ht

theorem absorb (h : K.Carries apply apply') (hrun : K.Runs run run') (ha : K.Attempts a a') :
    K.Steps (ExceptRel K.Attempts K.Runs) (run.absorb job apply a) (run'.absorb job' apply' a') := by
  cases ha with
  | settled hv =>
    cases hv with
    | matched ht => exact .pure (.ok (hrun.next (hK.collect hrun ht) none))
    | silent why => exact .pure (.ok (hrun.next hrun.collected (some why)))
    | omitted hs => exact .pure (.ok (hrun.next (hK.pass hrun.collected hs.stop) none))
    | failed hf =>
      refine .bind (hK.skipBetween h hrun.setting hrun.collected) fun r r' hr => ?_
      rcases hr with (hacc | _) | herror
      · exact .pure (.ok { hrun with collected := hacc })
      · exact .pure (.error (.settled (.failed hf)))
      · exact .pure (.error (herror ▸ .broken _))
  | recursion hs =>
    cases hs with
    | none => exact .pure (.error (.recursion .none))
    | some hworks => exact .pure (.error (.recursion (.some (List.rel_append hworks (.cons (.sequence hrun) .nil)))))
  | broken error => exact .pure (.error (.broken error))

theorem drive (h : K.Carries apply apply') : ∀ (fuel : Nat) {run run' : Run}, K.Runs run run' →
    K.Steps (ExceptRel K.Attempts K.Runs) (run.drive job apply fuel) (run'.drive job' apply' fuel)
  | 0, run, run', hrun => .pure (.error (.failure (hK.place hrun.collected.cursor)))
  | fuel + 1, run, run', hrun => by
    have hpart : Option.Rel K.expr run.parts[run.done]? run'.parts[run'.done]? := by
      rw [hrun.done]
      exact getElem?_rel hrun.parts _
    unfold Run.drive
    generalize run.parts[run.done]? = part at hpart
    generalize run'.parts[run'.done]? = part' at hpart
    cases hpart with
    | none => exact .pure (.ok hrun)
    | some he =>
      refine .bind_get fun s s' hs => .ite ?_ (.bind .reportReentry fun _ _ _ => .pure (.error ?_)) ?_
      · have hplace : K.location run.here.location run'.here.location := hK.place hrun.here.position
        rw [hrun.done, hK.reenters hs he hplace]
      · exact .recursion (.some (.cons (.sequence { hrun with growing := rfl, needsSeed := rfl }) .nil))
      · refine .bind (h _ _ _ _ he hrun.here) fun a a' ha => .bind (hK.absorb h hrun ha) fun r r' hr => ?_
        cases hr with
        | ok hfurther => exact drive h fuel hfurther
        | error ha => exact .pure (.error ha)

theorem fuel (hrun : K.Runs run run') : run.fuel job = run'.fuel job' := by
  unfold Run.fuel
  rw [hrun.parts.length_eq, hK.remaining hrun.collected.cursor, hK.slack]

theorem conclude (hrun : K.Runs run run') : K.Verdicts (run.conclude job) (run'.conclude job') := by
  have htree := hK.tree hrun.collected
  unfold Run.conclude
  rw [hrun.silence]
  simp only
  split
  · rw [hK.isNil htree]
    split
    · exact .silent _
    · exact .matched htree
  · exact .matched htree

theorem tail (h : K.Carries apply apply') (hrun : K.Runs run run') {cursor cursor' : Position}
    (hcursor : K.position cursor cursor') : K.Steps K.Attempts (run.tail job apply cursor) (run'.tail job' apply' cursor') := by
  have hsetting : K.Settings (run.setting.moved cursor) (run'.setting.moved cursor') :=
    ⟨hcursor, hrun.setting.rule, hrun.setting.skipping⟩
  have hfurther : K.Runs (.new run.parts run.flatten (run.setting.moved cursor) 1)
      (.new run'.parts run'.flatten (run'.setting.moved cursor') 1) :=
    hrun.flatten ▸ .new hrun.parts hsetting run.flatten 1
  unfold Run.tail
  simp only
  rw [hK.fuel hfurther]
  refine .bind (hK.drive h _ hfurther) fun r r' hr => ?_
  cases hr with
  | ok hlast => exact .pure (.settled (hK.conclude hlast))
  | error ha => exact .pure ha

theorem extend (h : K.Carries apply apply') (hrun : K.Runs run run') : ∀ (fuel : Nat) {cursor cursor' : Position} {t t' : Tree},
    K.position cursor cursor' → K.tree t t' →
      K.Steps K.Attempts (run.extend job apply fuel cursor t) (run'.extend job' apply' fuel cursor' t')
  | 0, _, _, _, _, _, ht => .pure (.settled (.matched ht))
  | fuel + 1, cursor, cursor', t, t', hcursor, ht => by
    have hdone : K.Steps K.Attempts (Pure.pure (.settled (.matched t))) (Pure.pure (.settled (.matched t'))) :=
      .pure (.settled (.matched ht))
    unfold Run.extend
    refine .ite (hK.length_le hcursor) hdone (.bind (hK.tail h hrun hcursor) fun a a' ha => ?_)
    rcases ha with (hmore | _ | _ | _) | _ | error
    · have hstop := (hK.extent hmore).stop
      have hfurther := hK.moveTo hcursor hstop
      refine .ite (hK.le hstop (hK.place hcursor)) hdone ?_
      refine .bind .count fun _ _ _ => .bind .note fun _ _ _ => extend h hrun fuel hfurther ?_
      exact hK.list (hK.ofPositions hrun.collected.start hfurther) (.cons ht (.cons hmore .nil))
    · exact hdone
    · exact hdone
    · exact hdone
    · exact hdone
    · exact .pure (.broken error)

theorem complete (h : K.Carries apply apply') (hrun : K.Runs run run') :
    K.Steps K.Attempts (run.complete job apply) (run'.complete job' apply') := by
  unfold Run.complete
  refine .ite (by rw [hrun.growing]) ?_ (.pure (.settled (hK.conclude hrun)))
  simp only
  rw [hK.remaining hrun.collected.cursor]
  exact hK.extend h hrun _ hrun.collected.cursor (hK.tree hrun.collected)

theorem finish (h : K.Carries apply apply') (hrun : K.Runs run run') :
    K.Steps K.Attempts (run.finish job apply) (run'.finish job' apply') := by
  unfold Run.finish
  rw [hK.fuel hrun]
  refine .bind (hK.drive h _ hrun) fun r r' hr => ?_
  cases hr with
  | ok hlast => exact hK.complete h hlast
  | error ha => exact .pure ha

/-! ## Suspended work -/

/-- What a rule makes of a result. -/
theorem produceAttempt {rule : String} (ht : K.tree t t') :
    K.Attempts (match job.grammar.produce rule t with | .ok u => .settled (.matched u) | .error error => .broken error)
      (match job'.grammar.produce rule t' with | .ok u => .settled (.matched u) | .error error => .broken error) := by
  have hproduced := @Holds.produce _ _ _ hK rule _ _ ht
  generalize job.grammar.produce rule t = r at hproduced
  generalize job'.grammar.produce rule t' = r' at hproduced
  cases hproduced with
  | ok hu => exact .settled (.matched hu)
  | error herror => exact herror ▸ .broken _

theorem wrapAttempt (rule : String) (ha : K.Attempts a a') :
    K.Attempts (Packrat.wrapAttempt job rule a) (Packrat.wrapAttempt job' rule a') := by
  rcases ha with (ht | why | hs | hf) | (hworks | _) | error
  · exact hK.produceAttempt ht
  · exact .settled (.silent why)
  · exact .settled (.omitted hs)
  · exact .settled (.failed hf)
  · exact .recursion (.some (List.rel_append hworks (.cons (.wrapping rule) .nil)))
  · exact .recursion .none
  · exact .broken error

theorem seeded (hrun : K.Runs run run') (ha : K.Attempts a a') : K.Attempts (run.seeded job a) (run'.seeded job' a') := by
  rcases ha with (ht | why | hs | hf) | hs | error
  · unfold Run.seeded
    simp only
    rw [hrun.setting.rule]
    split
    · exact hK.produceAttempt ht
    · exact .settled (.matched ht)
  · exact .settled (.silent why)
  · exact .settled (.omitted hs)
  · exact .settled (.failed hf)
  · exact .recursion hs
  · exact .broken error

theorem resumeRun (h : K.Carries apply apply') (hrun : K.Runs run run') (ha : K.Attempts a a') :
    K.Steps K.Attempts (run.resume job apply a) (run'.resume job' apply' a') := by
  have hgiven : K.Attempts (if run.needsSeed then run.seeded job a else a) (if run'.needsSeed then run'.seeded job' a' else a') := by
    rw [hrun.needsSeed]
    split
    · exact hK.seeded hrun ha
    · exact ha
  have hready : K.Runs { run with needsSeed := false } { run' with needsSeed := false } := { hrun with needsSeed := rfl }
  refine .bind (hK.absorb h hready hgiven) fun r r' hr => ?_
  cases hr with
  | ok hfurther => exact hK.finish h hfurther
  | error ha => exact .pure ha

theorem resume (h : K.Carries apply apply') {suspension suspension' : Suspension}
    (hworks : List.Forall₂ K.Works suspension suspension') : ∀ {a a' : Attempt}, K.Attempts a a' →
      K.Steps K.Attempts (Suspension.resume job apply suspension a) (Suspension.resume job' apply' suspension' a') := by
  induction hworks with
  | nil => exact fun ha => .pure ha
  | @cons work work' others others' hwork hothers ih =>
    intro a a' ha
    have hresumed : K.Steps K.Attempts (work.resume job apply a) (work'.resume job' apply' a') := by
      cases hwork with
      | sequence hrun => exact hK.resumeRun h hrun ha
      | memory hq => exact hK.remembering hq ha
      | wrapping rule => exact .pure (hK.wrapAttempt rule ha)
    unfold Suspension.resume
    refine .bind hresumed fun b b' hb => ?_
    rcases hb with hv | (hsuspended | _) | error
    · exact ih (.settled hv)
    · exact .pure (.recursion (.some (List.rel_append hsuspended hothers)))
    · exact ih (.recursion .none)
    · exact ih (.broken error)

theorem plantSeed (h : K.Carries apply apply') {suspension suspension' : Suspension}
    (hworks : List.Forall₂ K.Works suspension suspension') (ht : K.tree t t') :
    K.Steps K.Attempts (Packrat.plantSeed job apply suspension t) (Packrat.plantSeed job' apply' suspension' t') := by
  refine .bind .note fun _ _ _ => .bind .emit fun _ _ _ => .bind .count fun _ _ _ => ?_
  refine .bind (hK.resume h hworks (.settled (.matched ht))) fun b b' hb => ?_
  rcases hb with (hu | why | hs | hf) | hs | error
  · exact .pure (.settled (.matched hu))
  · exact .pure (.settled (.silent why))
  · exact .pure (.settled (.omitted hs))
  · exact .pure (.settled (.matched ht))
  · exact .pure (.settled (.matched ht))
  · exact .pure (.broken error)

/-! ## Choices -/

theorem failed {tried tried' : Tried} {f f' : Failure} (htried : K.Tries tried tried') (hf : K.Failures f f') :
    K.Tries (tried.failed f) (tried'.failed f') := by
  have hreaches : tried.furthest.all f.reaches = tried'.furthest.all f'.reaches := by
    have hfurthest := htried.furthest
    generalize tried.furthest = furthest at hfurthest
    generalize tried'.furthest = furthest' at hfurthest
    cases hfurthest with
    | none => rfl
    | some hg => exact decide_eq_decide.2 (hK.le hg.stop hf.stop)
  unfold Tried.failed
  rw [hreaches]
  split
  · exact ⟨.some hf, htried.recursion⟩
  · exact htried

theorem tryChoice (h : K.Carries apply apply') (hsetting : K.Settings setting setting') {alternatives alternatives' : List Expr}
    (halternatives : List.Forall₂ K.expr alternatives alternatives') : ∀ {tried tried' : Tried}, K.Tries tried tried' →
      K.Steps K.Attempts (Packrat.tryChoice job apply setting alternatives tried)
        (Packrat.tryChoice job' apply' setting' alternatives' tried') := by
  induction halternatives with
  | nil =>
    intro tried tried' htried
    unfold Packrat.tryChoice Setting.rest
    rw [hK.rest hsetting.position]
    exact .pure (htried.exhausted (hK.place hsetting.position))
  | @cons e e' others others' he _ ih =>
    intro tried tried' htried
    unfold Packrat.tryChoice
    refine .bind (h _ _ _ _ he hsetting) fun a a' ha => ?_
    rcases ha with (ht | why | hs | hf) | hs | error
    · have hrecursion := htried.recursion
      simp only
      generalize tried.recursion = signal at hrecursion
      generalize tried'.recursion = signal' at hrecursion
      rcases hrecursion with (hworks | _) | _
      · exact hK.plantSeed h hworks ht
      · exact .pure (.settled (.matched ht))
      · exact .pure (.settled (.matched ht))
    · exact .pure (.settled (.silent why))
    · exact .pure (.settled (.omitted hs))
    · exact .bind .emit fun _ _ _ => .bind .count fun _ _ _ => ih (hK.failed htried hf)
    · exact ih ⟨htried.furthest, .some hs⟩
    · exact .pure (.broken error)

/-! ## Repetitions -/

theorem rounds (h : K.Carries apply apply') (hsetting : K.Settings setting setting') {body body' : Expr} (hbody : K.expr body body')
    {bounds : Bounds} : ∀ (fuel : Nat) {rounds rounds' : Rounds}, K.Turns rounds rounds' →
      K.Steps (ExceptRel K.Attempts K.Turns) (rounds.drive job apply body bounds setting fuel)
        (rounds'.drive job' apply' body' bounds setting' fuel)
  | 0, _, _, hrounds => .pure (.ok hrounds)
  | fuel + 1, r, r', hrounds => by
    have hcursor := hrounds.collected.cursor
    have hstay : K.Steps (ExceptRel K.Attempts K.Turns) (Pure.pure (.ok r)) (Pure.pure (.ok r')) := .pure (.ok hrounds)
    unfold Rounds.drive
    refine .ite (by rw [Rounds.mayGoOn, Rounds.mayGoOn, hrounds.matched]) hstay ?_
    refine .bind (h _ _ _ _ hbody ⟨hcursor, hsetting.rule, hsetting.skipping⟩) fun a a' ha => ?_
    rcases ha with (ht | why | hs | hf) | hs | error
    · have hfurther : K.Turns (r.next (r.collected.add job.input _)) (r'.next (r'.collected.add job'.input _)) :=
        ⟨hK.add hrounds.collected ht, congrArg (· + 1) hrounds.matched⟩
      exact .ite (hK.le (hK.extent ht).stop (hK.place hcursor)) (.pure (.ok hfurther)) (rounds h hsetting hbody fuel hfurther)
    · cases why with
      | tookNothing => exact hstay
      | ahead | notAhead => exact .pure (.error (.settled (.silent _)))
    · refine .ite (hK.le hs.stop (hK.place hcursor)) hstay (rounds h hsetting hbody fuel ?_)
      exact ⟨hK.pass hrounds.collected hs.stop, congrArg (· + 1) hrounds.matched⟩
    · refine .bind (hK.skipBetween h hsetting hrounds.collected) fun r r' hr => ?_
      rcases hr with (hacc | _) | herror
      · exact rounds h hsetting hbody fuel ⟨hacc, hrounds.matched⟩
      · exact hstay
      · exact .pure (.error (herror ▸ .broken _))
    · exact .pure (.error (.recursion .none))
    · exact .pure (.error (.broken error))

theorem concludeRounds {rounds rounds' : Rounds} (hrounds : K.Turns rounds rounds') {bounds : Bounds}
    {fallback fallback' : Option Tree} (hfallback : Option.Rel K.Fallbacks fallback fallback') {l l' : Location}
    (hl : K.location l l') : K.Verdicts (rounds.conclude job bounds fallback l) (rounds'.conclude job' bounds fallback' l') := by
  have hcursor := hrounds.collected.cursor
  have hsize : rounds.collected.results.size = rounds'.collected.results.size := hrounds.collected.results.length_eq
  have hempty : rounds.collected.results.isEmpty = rounds'.collected.results.isEmpty := by
    rw [Array.isEmpty, Array.isEmpty, hsize]
  unfold Rounds.conclude
  rw [hrounds.matched, hempty]
  split
  · cases hfallback with
    | none => exact .silent _
    | some ht => exact .matched (ht l l' hl)
  · split
    · refine .failed ⟨?_, hK.place hcursor⟩
      simp only [hK.rest hcursor]
    · split
      · exact .omitted (hK.span hrounds.collected)
      · exact .matched (hK.tree hrounds.collected)

theorem tryRepetition (h : K.Carries apply apply') (hsetting : K.Settings setting setting') {body body' : Expr}
    (hbody : K.expr body body') {bounds : Bounds} {fallback fallback' : Option Tree}
    (hfallback : Option.Rel K.Fallbacks fallback fallback') :
    K.Steps K.Attempts (Packrat.tryRepetition job apply body bounds fallback setting)
      (Packrat.tryRepetition job' apply' body' bounds fallback' setting') := by
  unfold Packrat.tryRepetition
  simp only
  rw [hK.remaining hsetting.position, hK.slack]
  refine .bind (hK.rounds h hsetting hbody _ ⟨.new hsetting.position, rfl⟩) fun r r' hr => ?_
  cases hr with
  | ok hrounds => exact .pure (.settled (hK.concludeRounds hrounds hfallback (hK.place hsetting.position)))
  | error ha => exact .pure ha

/-! ## Expressions -/

/-- A rule is tried alike wherever the same is skipped inside it. -/
theorem tryRuleInside (h : K.Carries apply apply') (hposition : K.position setting.position setting'.position) {name : String}
    (hinside : K.skipping (job.skippingIn name setting.skipping) (job'.skippingIn name setting'.skipping)) :
    K.Steps K.Attempts (Packrat.tryRule job apply name setting) (Packrat.tryRule job' apply' name setting') := by
  have hbody := @Holds.rule _ _ _ hK name
  unfold Packrat.tryRule
  generalize job.grammar.rule? name = body at hbody
  generalize job'.grammar.rule? name = body' at hbody
  cases hbody with
  | none => exact .pure (.broken _)
  | some hbody =>
    refine .bind .emit fun _ _ _ => .bind .count fun _ _ _ => ?_
    refine .bind (h _ _ _ _ hbody ⟨hposition, rfl, hinside⟩) fun a a' ha => ?_
    exact .bind .emit fun _ _ _ => .pure (hK.wrapAttempt name ha)

theorem tryRule (h : K.Carries apply apply') (hsetting : K.Settings setting setting') (name : String) :
    K.Steps K.Attempts (Packrat.tryRule job apply name setting) (Packrat.tryRule job' apply' name setting') :=
  hK.tryRuleInside h hsetting.position (hK.skippingIn hsetting.skipping)

theorem evaluate (h : K.Carries apply apply') {e e' : Expr} (he : K.expr e e') (hsetting : K.Settings setting setting') :
    K.Steps K.Attempts (Packrat.evaluate job apply e setting) (Packrat.evaluate job' apply' e' setting') := by
  have hplace : K.location setting.location setting'.location := hK.place hsetting.position
  have hrest : setting.rest job.input = setting'.rest job'.input := hK.rest hsetting.position
  cases hK.shape he with
  | literal text =>
    unfold Packrat.evaluate
    exact .pure (.settled (hrest ▸ hK.literal hplace))
  | pattern pattern =>
    unfold Packrat.evaluate
    exact .pure (.settled (hrest ▸ hK.pattern hplace))
  | external key =>
    unfold Packrat.evaluate
    exact .pure (.settled (hrest ▸ hK.external he hplace))
  | rule name => exact hK.tryRule h hsetting name
  | sequence hparts => exact hK.finish h (.new hparts hsetting false 0)
  | merge hparts => exact hK.finish h (.new hparts hsetting true 0)
  | choice hparts => exact hK.tryChoice h hsetting hparts ⟨.none, .none⟩
  | repetition hbody hfallback => exact hK.tryRepetition h hsetting hbody hfallback
  | ahead hbody =>
    refine .bind (h _ _ _ _ hbody hsetting) fun a a' ha => .pure ?_
    cases ha with
    | settled hv =>
      unfold aheadAttempt
      simp only
      rw [hv.holds, hK.display hbody, hrest]
      split
      · exact .settled (.silent .ahead)
      · exact .failure hplace
    | recursion => exact .recursion .none
    | broken error => exact .broken error
  | notAhead hbody =>
    refine .bind (h _ _ _ _ hbody hsetting) fun a a' ha => .pure ?_
    cases ha with
    | settled hv =>
      unfold notAheadAttempt
      simp only
      rw [hv.holds, hK.display hbody, hrest]
      split
      · exact .failure hplace
      · exact .settled (.silent .notAhead)
    | recursion => exact .recursion .none
    | broken error => exact .broken error
  | omission hbody =>
    refine .bind (h _ _ _ _ hbody hsetting) fun a a' ha => .pure ?_
    rcases ha with (ht | why | hs | hf) | hs | error
    · have hstop := hK.moveTo hsetting.position (hK.extent ht).stop
      exact .settled (.omitted (hK.ofPositions hsetting.position hstop))
    · cases why with
      | tookNothing => exact .settled (.omitted (.empty hplace))
      | ahead | notAhead => exact .settled (.silent _)
    · exact .settled (.omitted hs)
    · exact .settled (.failed hf)
    · exact .recursion .none
    · exact .broken error

/-- Corresponding expressions come to corresponding attempts with any number of levels of nesting. -/
theorem applyWithin : ∀ levels : Nat, K.Carries (Packrat.applyWithin job levels) (Packrat.applyWithin job' levels)
  | 0 => fun e e' setting setting' _ hsetting => by
    unfold Packrat.applyWithin
    rw [hK.depthLimit]
    exact .pure (.failure (hK.place hsetting.position))
  | levels + 1 => fun e e' setting setting' he hsetting => by
    have hplace : K.location setting.location setting'.location := hK.place hsetting.position
    have hq : K.Questions (.of e setting) (.of e' setting') := ⟨he, hplace, hsetting.skipping⟩
    refine .bind (hK.lookUp hq) fun found found' hfound => ?_
    cases hfound with
    | some hv => exact .pure (.settled hv)
    | none =>
      refine .bind_get fun s s' hs => .ite (by rw [hK.reenters hs he hplace]) ?_ ?_
      · exact .bind .reportReentry fun _ _ _ => .pure (.recursion .none)
      · have hreference : e.reference? = e'.reference? := by
          cases hK.shape he <;> rfl
        rw [hreference]
        exact .bind (nested hplace (hK.evaluate (applyWithin levels) he hsetting)) fun _ _ ha => hK.remembering hq ha

end

end Holds

end Packrat.Correspondence

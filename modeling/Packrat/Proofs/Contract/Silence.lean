/-
When silence means that nothing was taken. A sequence is silent if its last part is and it has no
results, and a repetition is silent if what it repeats looks ahead. Input that was taken before is
hidden then, where a part has left it out or a round has matched. In a grammar where that cannot
happen, whatever is silent has taken nothing.
-/
import Packrat.Parse.Matcher
import Packrat.Proofs.Contract.Kept
import Packrat.Proofs.Expr.Void
import Packrat.Proofs.Parse.Turns

namespace Packrat

/-- A verdict with nothing to show is one that the expression may come to. -/
def Verdict.Candid (g : Grammar) (e : Expr) : Verdict → Prop
  | .matched t => t.Hollow → Voids g .blank e
  | .omitted _ => Voids g .blank e
  | .silent why => Voids g why.void e
  | .failed _ => True

/-- Nothing was taken, and the stretch of what was collected has no width. -/
def Accumulator.Idle (acc : Accumulator) : Prop := acc.begun = false → acc.start = acc.stop ∧ acc.results = #[]

namespace Accumulator.Idle

variable {input : List Char} {acc : Accumulator}

theorem new {p : Position} : (Accumulator.new p).Idle := fun _ => ⟨rfl, rfl⟩

theorem begun (h : acc.begun = true) : acc.Idle := fun hn => by simp [h] at hn

theorem skip (h : acc.Idle) (stop : Location) : (acc.skip input stop).Idle := by
  unfold Accumulator.skip
  simp only
  split
  · next hb => exact begun hb
  · next hb => exact fun _ => ⟨rfl, (h (by simpa using hb)).2⟩

end Accumulator.Idle

/-! ## Runs -/

/-- What a run of which the parts from `first` on were tried has come to, if its results tell nothing. -/
structure Run.Candid (g : Grammar) (first : Nat) (run : Run) : Prop where
  idle : run.collected.Idle
  /-- Where input was taken, there is a result, or a part has left it out before the last silent one. -/
  begun : run.collected.begun = true → (∃ t ∈ run.collected.results, ¬ t.Hollow) ∨
    ∃ i part, first ≤ i ∧ i < run.done ∧ (run.silence ≠ none → i + 1 < run.done) ∧ run.parts[i]? = some part ∧
      Voids g .blank part
  voids : (∀ t ∈ run.collected.results, t.Hollow) →
    ∀ i part, first ≤ i → i < run.done → run.parts[i]? = some part → Voids g .any part
  silent : ∀ why, run.silence = some why →
    ∃ i part, run.done = i + 1 ∧ run.parts[i]? = some part ∧ Voids g why.void part
  resulting : run.silence = none → first < run.done → run.collected.begun = true
  growing : run.growing = true → 0 < run.done → run.collected.begun = true

namespace Run.Candid

variable {job : Job} {g : Grammar} {first : Nat} {run : Run} {part : Expr} {t : Tree}

theorem begun_collect (input : List Char) (run : Run) (t : Tree) : (run.collect input t).begun = true := by
  unfold Run.collect
  split <;> rfl

theorem new {parts : List Expr} {flatten : Bool} {setting : Setting} :
    Run.Candid g first (.new parts flatten setting first) where
  idle := .new
  begun := nofun
  voids _ _ _ hle hlt := absurd hlt (Nat.not_lt.2 hle)
  silent := nofun
  resulting _ hlt := absurd hlt (Nat.lt_irrefl _)
  growing := nofun

theorem matched (h : run.Candid g first) (hfirst : first ≤ run.done) (hp : run.parts[run.done]? = some part)
    (ht : t.Hollow → Voids g .blank part) : (run.next (run.collect job.input t) none).Candid g first where
  idle := .begun (begun_collect _ _ _)
  begun _ := by
    by_cases hhollow : t.Hollow
    · exact .inr ⟨run.done, part, hfirst, Nat.lt_succ_self _, fun hn => absurd rfl hn, hp, ht hhollow⟩
    · refine .inl (Classical.byContradiction fun hn => hhollow ?_)
      have hall : ∀ u ∈ (run.collect job.input t).results, u.Hollow := fun u hu =>
        Classical.byContradiction fun hu' => hn ⟨u, hu, hu'⟩
      exact (hollow_collect.1 hall).2
  voids hall i part' hle hlt hp' := by
    obtain ⟨hbefore, hhollow⟩ := hollow_collect.1 hall
    rcases Nat.lt_succ_iff_lt_or_eq.1 hlt with hlt | rfl
    · exact h.voids hbefore i part' hle hlt hp'
    · have hp' : run.parts[run.done]? = some part' := hp'
      rw [hp] at hp'
      cases hp'
      exact .any (ht hhollow)
  silent := nofun
  resulting _ _ := begun_collect _ _ _
  growing _ _ := begun_collect _ _ _

theorem omitted (h : run.Candid g first) (hfirst : first ≤ run.done) (hp : run.parts[run.done]? = some part)
    (hv : Voids g .blank part) (stop : Location) : (run.next (run.collected.pass job.input stop) none).Candid g first where
  idle := .begun rfl
  begun _ := .inr ⟨run.done, part, hfirst, Nat.lt_succ_self _, fun hn => absurd rfl hn, hp, hv⟩
  voids hall i part' hle hlt hp' := by
    rcases Nat.lt_succ_iff_lt_or_eq.1 hlt with hlt | rfl
    · exact h.voids hall i part' hle hlt hp'
    · have hp' : run.parts[run.done]? = some part' := hp'
      rw [hp] at hp'
      cases hp'
      exact .any hv
  silent := nofun
  resulting _ _ := rfl
  growing _ _ := rfl

theorem silenced (h : run.Candid g first) (hp : run.parts[run.done]? = some part) {why : Silence}
    (hg : run.growing = true → 0 < run.done) (hv : Voids g why.void part) :
    (run.next run.collected (some why)).Candid g first where
  idle := h.idle
  begun hb := by
    rcases h.begun hb with hresult | ⟨i, part', hle, hlt, -, hp', hv'⟩
    · exact .inl hresult
    · exact .inr ⟨i, part', hle, Nat.lt_succ_of_lt hlt, fun _ => Nat.succ_lt_succ hlt, hp', hv'⟩
  voids hall i part' hle hlt hp' := by
    rcases Nat.lt_succ_iff_lt_or_eq.1 hlt with hlt | rfl
    · exact h.voids hall i part' hle hlt hp'
    · have hp' : run.parts[run.done]? = some part' := hp'
      rw [hp] at hp'
      cases hp'
      exact .any hv
  silent why' hw := by
    cases hw
    exact ⟨run.done, part, rfl, hp, hv⟩
  resulting := nofun
  growing hgrowing _ := h.growing hgrowing (hg hgrowing)

theorem skipped (h : run.Candid g first) (stop : Location) :
    Run.Candid g first { run with collected := run.collected.skip job.input stop } := by
  have hbegun : (run.collected.skip job.input stop).begun = run.collected.begun := by
    unfold Accumulator.skip
    simp only
    split <;> rfl
  have hresults : (run.collected.skip job.input stop).results = run.collected.results := Accumulator.results_skip _
  exact {
    idle := h.idle.skip stop
    begun := fun hb => by
      simp only [hresults]
      exact h.begun (hbegun ▸ hb)
    voids := fun hall => h.voids (hresults ▸ hall)
    silent := h.silent
    resulting := fun hs hlt => hbegun.trans (h.resulting hs hlt)
    growing := fun hg hd => hbegun.trans (h.growing hg hd) }

/-- All parts of a complete run that tells nothing may have nothing to show. -/
theorem all_voids (h : run.Candid g 0) (hd : run.parts[run.done]? = none)
    (hall : ∀ t ∈ run.collected.results, t.Hollow) : ∀ part ∈ run.parts, Voids g .any part := by
  intro part hm
  obtain ⟨i, hi, rfl⟩ := List.getElem_of_mem hm
  have hlength := List.getElem?_eq_none_iff.1 hd
  exact h.voids hall i _ (Nat.zero_le i) (Nat.lt_of_lt_of_le hi hlength) (List.getElem?_eq_getElem hi)

/-- A complete run that has taken input and tells nothing of it is blank. -/
theorem blank (h : run.Candid g 0) (hd : run.parts[run.done]? = none) (hb : run.collected.begun = true)
    (hall : ∀ t ∈ run.collected.results, t.Hollow) : Voids g .blank run.expr := by
  rcases h.begun hb with ⟨t, ht, hn⟩ | ⟨i, part, -, -, -, hp, hv⟩
  · exact absurd (hall t ht) hn
  · exact .chain run.chain?_expr (h.all_voids hd hall) (List.mem_of_getElem? hp) hv

/-- The part before a complete run's end that was silent is its last one. -/
theorem getLast? (h : run.Candid g 0) (hd : run.parts[run.done]? = none) {why : Silence} (hw : run.silence = some why) :
    ∃ part, run.parts.getLast? = some part ∧ Voids g why.void part := by
  obtain ⟨i, part, hdone, hp, hv⟩ := h.silent why hw
  refine ⟨part, ?_, hv⟩
  have hlength := List.getElem?_eq_none_iff.1 hd
  obtain ⟨hi, rfl⟩ := List.getElem?_eq_some_iff.1 hp
  have hlast : run.parts.length - 1 = i := by omega
  rw [List.getLast?_eq_getElem?, hlast]
  exact List.getElem?_eq_getElem hi

theorem concluded (h : run.Candid g 0) (hd : run.parts[run.done]? = none) : (run.conclude job).Candid g run.expr := by
  have hblank (hb : run.collected.begun = true) (ht : (run.collected.tree job.input).Hollow) : Voids g .blank run.expr :=
    h.blank hd hb (Accumulator.hollow_tree.1 ht)
  unfold Run.conclude
  simp only
  split
  · next why hw =>
    split
    · next hnil =>
      have hall := Accumulator.hollow_tree.1 (Tree.hollow_of_isNil hnil)
      obtain ⟨part, hlast, hv⟩ := h.getLast? hd hw
      exact .last why.void_cases run.chain?_expr (h.all_voids hd hall) hlast hv
    · next hnil =>
      intro ht
      refine hblank ?_ ht
      cases hb : run.collected.begun with
      | true => rfl
      | false =>
        -- without results the tree would be an empty list
        refine absurd ?_ hnil
        unfold Accumulator.tree
        rw [(h.idle hb).2]
        rfl
  · next hw =>
    intro ht
    rcases Nat.eq_zero_or_pos run.done with hzero | hpos
    · rw [hzero] at hd
      have hnil : run.parts = [] := by
        cases hparts : run.parts with
        | nil => rfl
        | cons => simp [hparts] at hd
      exact .nothing (by rw [run.chain?_expr, hnil])
    · exact hblank (h.resulting hw hpos) ht

/-- In a candid grammar, a silent run has taken nothing. -/
theorem took_nothing (hg : g.Candid) (h : run.Candid g 0) (hhas : g.Has run.expr) (hd : run.parts[run.done]? = none)
    {why : Silence} (hw : run.conclude job = .silent why) : run.collected.start = run.collected.stop := by
  have hsilence : run.silence = some why ∧ (run.collected.tree job.input).isNil = true := by
    rcases run.conclude_cases job with hc | ⟨why', hs, hnil, hc⟩
    · cases hw.symm.trans hc
    · cases hw.symm.trans hc
      exact ⟨hs, hnil⟩
  have hall := Accumulator.hollow_tree.1 (Tree.hollow_of_isNil hsilence.2)
  cases hb : run.collected.begun with
  | false => exact (h.idle hb).1
  | true =>
    rcases h.begun hb with ⟨t, ht, hn⟩ | ⟨i, part, -, hlt, hbefore, hp, hv⟩
    · exact absurd (hall t ht) hn
    · -- the last part is silent, and the part that left input out came before it
      obtain ⟨last, hlast, hlastv⟩ := h.getLast? hd hsilence.1
      have hlt' := hbefore (by simp [hsilence.1])
      have hlength := List.getElem?_eq_none_iff.1 hd
      obtain ⟨j, _, hdone, hj, -⟩ := h.silent why hsilence.1
      have hjlt : j < run.parts.length := (List.getElem?_eq_some_iff.1 hj).1
      have hmem : part ∈ run.parts.dropLast := by
        rw [List.mem_iff_getElem?]
        refine ⟨i, ?_⟩
        rw [List.getElem?_dropLast, if_pos (by omega)]
        exact hp
      exact absurd hv (hg.chains _ last _ why hhas run.chain?_expr (h.all_voids hd hall) hlast hlastv part hmem)

end Run.Candid

/-! ## Rounds -/

/-- What the rounds of a repetition have come to, if their results tell nothing. -/
structure Rounds.Candid (g : Grammar) (body : Expr) (rounds : Rounds) : Prop where
  idle : rounds.collected.Idle
  begun : rounds.matched = 0 → rounds.collected.begun = false
  voids : (∀ t ∈ rounds.collected.results, t.Hollow) → 0 < rounds.matched → Voids g .blank body

namespace Rounds.Candid

variable {job : Job} {g : Grammar} {body : Expr} {bounds : Bounds} {fallback : Option Tree} {rounds : Rounds}

theorem took_nothing (h : rounds.Candid g body) (hm : rounds.matched = 0) : rounds.collected.start = rounds.collected.stop :=
  (h.idle (h.begun hm)).1

theorem concluded (h : rounds.Candid g body) (location : Location) :
    (rounds.conclude job bounds fallback location).Candid g (.repetition body bounds fallback) := by
  unfold Rounds.conclude
  split
  · next hm =>
    split
    · intro ht
      exact .fallback (Tree.hollow_setPlace.1 ht)
    · exact .never hm.2
  · next hm =>
    split
    · trivial
    · next hmin =>
      have hpos : 0 < rounds.matched := by omega
      split
      · next hempty =>
        refine .rounds (.inr rfl) (h.voids (fun t ht => ?_) hpos)
        rw [Array.isEmpty_iff.1 hempty] at ht
        simp at ht
      · intro ht
        exact .rounds (.inr rfl) (h.voids (Accumulator.hollow_tree.1 ht) hpos)

end Rounds.Candid

/-! ## The contract -/

/-- Verdicts with nothing to show come from expressions that may have nothing to show. -/
def Job.candor (job : Job) : Contract job where
  At _ := True
  Ends _ := True
  Fine e _ v := v.Candid job.grammar e
  Going first run := first ≤ run.done ∧ run.Candid job.grammar first
  Grown run _ t := t.Hollow → Voids job.grammar .blank run.expr
  Turning body _ _ rounds := rounds.Candid job.grammar body

section

variable {job : Job}

theorem Job.candor_plain : job.candor.Plain where
  ends _ := trivial
  failed := Iff.rfl
  same {e e' p v} _ _ hs h := by
    have hc := Expr.same_iff.1 hs
    cases v with
    | matched t => exact fun ht => (h ht).of_content hc
    | omitted span => exact Voids.of_content h hc
    | silent why => exact Voids.of_content h hc
    | failed failure => trivial
  moved _ _ _ h := h
  literal _ _ := by
    unfold literalVerdict
    split
    · nofun
    · trivial
  pattern _ _ := by
    unfold patternVerdict
    split
    · nofun
    · trivial
  external _ _ := by
    unfold externalVerdict
    split
    · exact fun _ => .external
    · trivial
  wrapped {name body p t t'} hb hv ht hhollow := by
    rcases Grammar.produce_eq_ok ht with rfl | ⟨-, -, hn⟩
    · exact .rule hb (hv (Tree.hollow_widened.1 hhollow))
    · exact absurd hhollow hn
  passed {name body p v} hb hn hv := by
    cases v with
    | matched t => exact absurd rfl (hn t)
    | omitted | silent => exact .rule hb hv
    | failed => trivial
  chosen {e alternatives p v} _ he hv := by
    cases v with
    | matched t => exact fun ht => .choice he (hv ht)
    | omitted | silent => exact .choice he hv
    | failed => trivial
  ahead _ := .ahead
  notAhead _ := .notAhead
  omission {body setting v w} _ _ hv hw := by
    cases v with
    | matched t =>
      cases hw
      exact .omitted
    | omitted span =>
      cases hw
      exact .omitted
    | silent why =>
      cases why with
      | tookNothing =>
        cases hw
        exact .omitted
      | ahead | notAhead =>
        cases hw
        exact .omission hv
    | failed failure =>
      cases hw
      trivial

theorem Job.candor_chains : job.candor.Chains where
  new _ := ⟨Nat.zero_le _, .new⟩
  cursor _ := trivial
  matched _ hp h ht := ⟨Nat.le_succ_of_le h.1, h.2.matched h.1 hp ht⟩
  omitted _ hp h hs := ⟨Nat.le_succ_of_le h.1, h.2.omitted h.1 hp hs _⟩
  silent _ hp hg h hv := ⟨Nat.le_succ_of_le h.1, h.2.silenced hp hg hv⟩
  skipped h _ := ⟨h.1, h.2.skipped _⟩
  concluded _ hd h := h.2.concluded hd
  aside {run growing needsSeed} hd h := ⟨h.1, { h.2 with growing := fun _ hpos => absurd hpos (by simp [hd]) }⟩
  planted {alternatives before later e e' m p o r t t'} hhas halt hm hescapes _ _ hv ht hhollow := by
    have hseed : t.Hollow → Voids job.grammar .blank (.rule r) := fun ht => .seed (halt ▸ hhas) hescapes.1 hm (hv ht)
    rcases ht with rfl | ⟨name, ht⟩
    · exact hseed hhollow
    · rcases Grammar.produce_eq_ok ht with rfl | ⟨-, -, hn⟩
      · exact hseed (Tree.hollow_widened.1 hhollow)
      · exact absurd hhollow hn
  complete _ hd hg hpos h ht := h.2.blank hd (h.2.growing hg hpos) (Accumulator.hollow_tree.1 ht)
  tail _ := ⟨Nat.le_refl _, .new⟩
  grow _ h _ _ _ _ _ ht := h (Tree.hollow_list.1 ht _ List.mem_cons_self)
  grown _ h := h

theorem Job.candor_turns : job.candor.Turns where
  new _ := ⟨.new, fun _ => rfl, fun _ hpos => absurd hpos (Nat.lt_irrefl 0)⟩
  cursor _ := trivial
  matched {body bounds p rounds t} h _ ht :=
    ⟨.begun rfl, nofun, fun hall _ => ht (hall t (by simp [Rounds.next]))⟩
  omitted h _ hs := ⟨.begun rfl, nofun, fun _ _ => hs⟩
  skipped {body bounds p rounds mode stop} h _ := by
    refine ⟨h.idle.skip stop, fun hm => ?_, fun hall hpos => h.voids ?_ hpos⟩
    · have hb := h.begun hm
      simp [Accumulator.skip, hb]
    · rwa [Accumulator.results_skip] at hall
  signalled {body bounds fallback p rounds why} _ _ _ hw hv := by
    cases why with
    | tookNothing => exact absurd rfl hw
    | ahead | notAhead => exact .rounds (.inl rfl) hv
  concluded _ _ h := h.concluded _

theorem Job.candor_lawful : job.candor.Lawful := ⟨job.candor_plain, job.candor_chains, job.candor_turns⟩

end

/-! ## Where nothing is hidden -/

/-- A session that a parse can come to: what is remembered is candid, and depths are counted. -/
structure Job.Honest (job : Job) (s : Session) : Prop where
  memory : Memory.Keeps job.candor.Remembers s.memory
  deepest : job.options.counting = true → s.depth ≤ s.counts.deepest

/-- A session in which a parse can try an expression: no rule was entered further on. -/
structure Job.Ready (job : Job) (e : Expr) (setting : Setting) (s : Session) : Prop where
  honest : job.Honest s
  has : job.grammar.Has e
  mode : job.grammar.Mode setting.skipping
  behind : Mark.Behind s.entered setting.location

section

variable {job : Job} {apply : Applier} {e : Expr} {setting : Setting} {run : Run} {s : Session} {why : Silence}

theorem Job.ready_start (h : job.grammar.Has e) : job.Ready e .start .start :=
  ⟨⟨Memory.keeps_empty, fun _ => Nat.le_refl _⟩, h, .standard, nofun⟩

namespace Job.Ready

theorem fits (h : job.Ready e setting s) : (job.candor.stance s.entered s.depth).Fits s :=
  ⟨h.honest.memory, rfl, rfl, h.honest.deepest⟩

theorem admits (h : job.Ready e setting s) : job.candor.Admits s.entered e setting := ⟨h.has, trivial, h.mode, h.behind⟩

/-- What a step yields in such a session is so, and the session stays as it is. -/
theorem yields {α : Type} {x : Eval α} {Q : α → Prop} (h : job.Ready e setting s)
    (hx : (job.candor.stance s.entered s.depth).Yields True x Q) :
    Q (x.on s).1 ∧ (job.candor.stance s.entered s.depth).Fits (x.on s).2 :=
  ((hx s).2 trivial h.fits).resolve_left id

/-- Another step can be taken after it. -/
theorem after {s' : Session} (h : job.Ready e setting s) (hs : (job.candor.stance s.entered s.depth).Fits s') :
    job.Ready e setting s' where
  honest := ⟨hs.memory, hs.deepest⟩
  has := h.has
  mode := h.mode
  behind := by
    have hmark : s'.entered = s.entered := hs.mark
    rw [hmark]
    exact h.behind

/-- A sequence or merge is a run that begins well. -/
theorem on {parts : List Expr} {flatten : Bool} (h : job.Ready (Run.new parts flatten setting 0).expr setting s) :
    job.candor.On 0 (.new parts flatten setting 0) (.new parts flatten setting 0) := .new job.candor_lawful h.admits

end Job.Ready

/-- Where a run is silent at its end, its parts were done and it has taken nothing. -/
theorem Run.finish_took_nothing (hg : job.grammar.Candid) (h : job.Ready run.expr run.setting s)
    (hon : job.candor.On 0 run run) {levels : Nat}
    (hw : ((run.finish job (applyWithin job levels)).on s).1 = .settled (.silent why)) :
    ∃ last, ((run.drive job (applyWithin job levels) (run.fuel job)).on s).1 = .ok last ∧
      last.conclude job = .silent why ∧ last.collected.start = last.collected.stop := by
  have hdrive := (h.yields (Contract.drive_kept (R := fun _ => True) job.candor_lawful (job.candor_lawful.kept levels _ _)
    h.behind (fun _ _ _ _ _ _ => trivial) (fun _ _ _ _ _ _ => trivial) (run.fuel job) hon)).1
  unfold Run.finish at hw
  rw [Eval.on_bind] at hw
  generalize (run.drive job (applyWithin job levels) (run.fuel job)).on s = r at hdrive hw
  obtain ⟨r, s'⟩ := r
  cases r with
  | ok last =>
    obtain ⟨hlast, hdone⟩ := hdrive
    have hw : ((last.complete job (applyWithin job levels)).on s').1 = .settled (.silent why) := hw
    unfold Run.complete at hw
    split at hw
    · rcases Run.extend_grows s' with ⟨t, ht⟩ | ⟨error, he⟩
      · cases hw.symm.trans ht
      · cases hw.symm.trans he
    · have hconclude : last.conclude job = .silent why := Attempt.settled.inj hw
      exact ⟨last, rfl, hconclude, hlast.going.2.took_nothing hg hlast.has hdone hconclude⟩
  | error attempt =>
    have hw : attempt = .settled (.silent why) := hw
    subst hw
    obtain ⟨f, hf, -⟩ := hdrive
    cases hf

/-- What looks ahead is repeated at most once, so a repetition that it makes silent has taken nothing. -/
theorem Rounds.course_took_nothing (hg : job.grammar.Candid) {body : Expr} {bounds : Bounds} {fallback : Option Tree}
    (h : job.Ready (.repetition body bounds fallback) setting s) {levels fuel : Nat} {rounds : Rounds}
    {other : Option Attempt}
    (hr : ((Rounds.course job (applyWithin job levels) body bounds setting fuel ⟨.new setting.position, 0⟩).on s).1 =
      (rounds, other))
    (hw : other.getD (.settled (rounds.conclude job bounds fallback setting.location)) = .settled (.silent why)) :
    rounds.collected.start = rounds.collected.stop := by
  have hcourse := (h.yields (Contract.course_kept job.candor_lawful (job.candor_lawful.kept levels _ _) h.admits fuel
    (job.candor_turns.new trivial) (Location.le_refl _))).1
  rw [hr] at hcourse
  obtain ⟨hturning, hdecides⟩ := hcourse
  refine hturning.took_nothing ?_
  cases other with
  | none =>
    have hw : rounds.conclude job bounds fallback setting.location = .silent why := Attempt.settled.inj hw
    unfold Rounds.conclude at hw
    split at hw
    · next hm => exact hm.1
    · split at hw
      · cases hw
      · split at hw <;> cases hw
  | some a =>
    have hw : a = .settled (.silent why) := hw
    subst hw
    obtain ⟨why', hne, hv, hgo, hfine⟩ := hdecides _ rfl
    cases hv
    have hlooking : Voids job.grammar .looking body := by
      cases why with
      | tookNothing => exact absurd rfl hne
      | ahead | notAhead => exact hfine
    obtain ⟨n, hn, hmax⟩ := hg.repetitions _ _ _ h.has hlooking
    have hlt : rounds.matched < n := by simpa [Rounds.mayGoOn, hmax] using hgo
    omega

/-- In a candid grammar, whatever is silent has taken nothing. A parse begins in a session where every
expression is ready to be tried, and whatever is tried leaves an honest session and a candid verdict,
or suspended runs in good order. A sequence or merge tried in such a session, or resumed in one, is
silent only if its stretch is empty at the end, and so is a repetition. -/
theorem Job.silence_takes_nothing (hg : job.grammar.Candid) (levels : Nat) :
    (∀ e, job.grammar.Has e → job.Ready e .start .start) ∧
    (∀ e setting s, job.Ready e setting s → job.Honest ((applyWithin job levels e setting).on s).2 ∧
      job.candor.Comes (job.candor.Signal s.entered e setting.position) e setting.position
        ((applyWithin job levels e setting).on s).1) ∧
    (∀ parts flatten setting s why, job.Ready (if flatten then .merge parts else .sequence parts) setting s →
      ((trySequence job (applyWithin job levels) parts flatten setting).on s).1 = .settled (.silent why) →
      ∃ last, ((Run.drive job (applyWithin job levels) ((Run.new parts flatten setting 0).fuel job)
          (.new parts flatten setting 0)).on s).1 = .ok last ∧
        last.conclude job = .silent why ∧ last.collected.start = last.collected.stop) ∧
    (∀ run part a s why, job.Ready run.expr run.setting s → job.candor.On 0 run run → run.parts[run.done]? = some part →
      job.candor.Comes (fun _ => True) part run.collected.cursor a →
      ((run.resume job (applyWithin job levels) a).on s).1 = .settled (.silent why) →
      ∃ further last, ((run.absorb job (applyWithin job levels) a).on s).1 = .ok further ∧
        ((further.drive job (applyWithin job levels) (further.fuel job)).on
          ((run.absorb job (applyWithin job levels) a).on s).2).1 = .ok last ∧
        last.conclude job = .silent why ∧ last.collected.start = last.collected.stop) ∧
    ∀ body bounds fallback setting s why, job.Ready (.repetition body bounds fallback) setting s →
      ((tryRepetition job (applyWithin job levels) body bounds fallback setting).on s).1 = .settled (.silent why) →
      ∃ rounds other, ((Rounds.course job (applyWithin job levels) body bounds setting
          (job.remaining setting.position + job.slack + 1) ⟨.new setting.position, 0⟩).on s).1 = (rounds, other) ∧
        rounds.collected.start = rounds.collected.stop := by
  refine ⟨fun e => Job.ready_start, fun e setting s h => ?_, fun parts flatten setting s why h hw => ?_,
    fun run part a s why h hon hp ha hw => ?_, fun body bounds fallback setting s why h hw => ?_⟩
  · obtain ⟨hcame, hs⟩ := h.yields (job.candor_lawful.kept levels _ _ e setting h.admits)
    exact ⟨(h.after hs).honest, hcame⟩
  · exact @Run.finish_took_nothing job (.new parts flatten setting 0) s why hg h h.on levels hw
  · have habsorb := h.yields (Contract.absorb_kept (R := fun _ => True) job.candor_lawful
      (job.candor_lawful.kept levels _ _) h.behind hon hp ha)
    rw [Run.resume_of_ready hon.ready, Run.goOn, Eval.on_bind] at hw
    generalize (run.absorb job (applyWithin job levels) a).on s = r at habsorb hw
    obtain ⟨r, s'⟩ := r
    obtain ⟨hr, hs⟩ := habsorb
    cases r with
    | ok further =>
      have hexpr : further.expr = run.expr := hr.continues.expr
      have hsetting : further.setting = run.setting := hr.continues.setting
      have hready : job.Ready further.expr further.setting s' := by
        rw [hexpr, hsetting]
        exact h.after hs
      obtain ⟨last, hlast⟩ := Run.finish_took_nothing hg hready { hr with continues := .refl _ } hw
      exact ⟨further, last, rfl, hlast⟩
    | error attempt =>
      have hw : attempt = .settled (.silent why) := hw
      subst hw
      obtain ⟨f, hf, -⟩ := hr
      cases hf
  · unfold tryRepetition at hw
    simp only [Rounds.drive_eq_course, bind_assoc, pure_bind] at hw
    rw [Eval.on_bind] at hw
    refine ⟨_, _, rfl, Rounds.course_took_nothing hg h rfl (Eq.trans ?_ hw)⟩
    generalize (Rounds.course job (applyWithin job levels) body bounds setting
      (job.remaining setting.position + job.slack + 1) ⟨.new setting.position, 0⟩).on s = r
    obtain ⟨⟨rounds, other⟩, s'⟩ := r
    cases other <;> rfl

end

namespace Grammar

/-- A word that may be missing, and that no digit follows. -/
def wordParts : List Expr := [.repetition (.literal ['x']) ⟨0, none⟩ none, .notAhead (.literal ['1'])]

/-- Such words. -/
def ofWord : Grammar where
  start := "word"
  rules := [("word", .sequence wordParts)]
  skipper := none
  overrides := []
  productions := []
  kinds := .empty

/-- Whether an expression repeats literals, if it repeats anything. -/
def repeatsLiterals : Expr → Bool
  | .repetition (.literal _) _ _ => true
  | .repetition _ _ _ => false
  | _ => true

theorem candid_ofWord : ofWord.Candid where
  chains _ _ _ _ he hc _ _ _ before hm hv :=
    hv.ne_blank (fun _ => Has.check (by decide +kernel))
      (he.part (Expr.parts_of_chain? hc ▸ List.dropLast_subset _ hm)) rfl
  repetitions body bounds fallback he hv := by
    have hbody := @Has.check ofWord repeatsLiterals (by decide +kernel) _ he
    cases body with
    | literal =>
      cases hv with
      | last _ hc => cases hc
    | _ => cases hbody

/-- Before `2` there is no such word. -/
def missing : Job := .new ofWord (.rule "word") .standard .nothing ['2']

theorem missing_takes_nothing : ∃ last,
    ((Run.drive missing (applyWithin missing 8) ((Run.new wordParts false .start 0).fuel missing)
      (.new wordParts false .start 0)).on .start).1 = .ok last ∧
    last.conclude missing = .silent .notAhead ∧ last.collected.start = last.collected.stop := by
  have hready : missing.Ready (.sequence wordParts) .start .start :=
    Job.ready_start (Has.body (show ofWord.rule? "word" = some _ from rfl))
  refine (Job.silence_takes_nothing candid_ofWord 8).2.2.1 _ false .start .start .notAhead hready ?_
  exact Attempt.silence?_eq_some (by decide +kernel)

/-- What the omission leaves out is hidden by a repetition behind it that takes nothing. -/
def hidingParts : List Expr := [.omission (.literal ['a']), .repetition (.literal ['x']) ⟨0, none⟩ none]

/-- The grammar of such a sequence. -/
def ofHiding : Grammar where
  start := "s"
  rules := [("s", .sequence hidingParts)]
  skipper := none
  overrides := []
  productions := []
  kinds := .empty

/-- It is silent on `a`. -/
def hidden : Job := .new ofHiding (.rule "s") .standard .nothing ['a']

/-- A sequence that has taken input can be silent. -/
theorem silence_conceals : hidden.Ready (.sequence hidingParts) .start .start ∧
    ((trySequence hidden (applyWithin hidden 8) hidingParts false .start).on .start).1 = .settled (.silent .tookNothing) ∧
    ∃ last, ((Run.drive hidden (applyWithin hidden 8) ((Run.new hidingParts false .start 0).fuel hidden)
        (.new hidingParts false .start 0)).on .start).1 = .ok last ∧
      last.conclude hidden = .silent .tookNothing ∧ last.collected.start ≠ last.collected.stop := by
  let origin := Run.new hidingParts false .start 0
  have hlast : (((origin.drive hidden (applyWithin hidden 8) (origin.fuel hidden)).on .start).1.toOption.map fun last =>
      (Attempt.silence? (.settled (last.conclude hidden)), last.collected.start.location, last.collected.stop.location)) =
        some (some .tookNothing, ⟨0, 0⟩, ⟨0, 1⟩) := by
    decide +kernel
  cases hdrive : ((origin.drive hidden (applyWithin hidden 8) (origin.fuel hidden)).on .start).1 with
  | error attempt =>
    rw [hdrive] at hlast
    cases hlast
  | ok last =>
    rw [hdrive] at hlast
    obtain ⟨hsilence, hplaces⟩ := Prod.mk.inj (Option.some.inj hlast)
    obtain ⟨hstart, hstop⟩ := Prod.mk.inj hplaces
    refine ⟨Job.ready_start (Has.body (show ofHiding.rule? "s" = some _ from rfl)),
      Attempt.silence?_eq_some (by decide +kernel), last, rfl,
      Attempt.settled.inj (Attempt.silence?_eq_some hsilence), fun he => ?_⟩
    rw [he, hstop] at hstart
    exact absurd hstart (by decide)

end Grammar

end Packrat

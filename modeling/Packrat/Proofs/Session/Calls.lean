/-
The expressions that are tried in the course of a parse. A procedure calls for an expression in a
session if it matters to it what comes of the expression there. Where whatever a procedure calls for
keeps up an invariant of sessions, so does the procedure, and it makes its calls in such sessions.
-/
import Packrat.Proofs.Parse.Concurrence

namespace Packrat

/-! ## Calls -/

/-- An expression tried in a setting and a session. -/
structure Call where
  expr : Expr
  setting : Setting
  session : Session

/-- The procedure would come to something else if nothing but what comes of the call were different. -/
def Procedure.Calls {α : Type} (x : Procedure α) (apply : Applier) (s : Session) (call : Call) : Prop :=
  ∃ other : Applier, (∀ e setting t, (⟨e, setting, t⟩ : Call) ≠ call → (other e setting).on t = (apply e setting).on t) ∧
    (x other).on s ≠ (x apply).on s

/-- Whatever error the call came to, the procedure would come to it as well. -/
def Procedure.Hinges {α : Type} [Breakable α] (x : Procedure α) (apply : Applier) (s : Session) (call : Call) : Prop :=
  ∀ error, ∃ other : Applier, (∀ e setting t, (⟨e, setting, t⟩ : Call) ≠ call → (other e setting).on t = (apply e setting).on t) ∧
    ((x other).on s).1 = Breakable.broken error

theorem Procedure.Hinges.calls {α : Type} [Breakable α] {x : Procedure α} {apply : Applier} {s : Session} {call : Call}
    (h : x.Hinges apply s call) : x.Calls apply s call := by
  -- one of two errors is not what the procedure comes to
  obtain ⟨other, hsame, hother⟩ := h (.unknownRule "a")
  obtain ⟨other', hsame', hother'⟩ := h (.unknownRule "b")
  by_cases heq : (x other).on s = (x apply).on s
  · refine ⟨other', hsame', fun heq' => ?_⟩
    have hbroken : (Breakable.broken (.unknownRule "a") : α) = Breakable.broken (.unknownRule "b") := by
      rw [← hother, ← hother', heq, heq']
    exact absurd (GrammarError.unknownRule.inj (Breakable.injective hbroken)) (by decide)
  · exact ⟨other, hsame, heq⟩

/-- The call is made in the course of a parse, with so many levels of nesting left. -/
inductive Job.Applies (job : Job) (root : Expr) : Nat → Call → Prop
  | root : job.Applies root job.options.depthLimit ⟨root, .start, .start⟩
  | inner {levels : Nat} {call next : Call} : job.Applies root (levels + 1) call →
    Procedure.Calls (fun apply => remembering job (evaluate job apply) call.expr call.setting) (applyWithin job levels)
      call.session next → job.Applies root levels next

/-- What comes of a call with so many levels of nesting left. -/
def Call.outcome (call : Call) (job : Job) (levels : Nat) : Attempt :=
  ((applyWithin job levels call.expr call.setting).on call.session).1

/-! ## Trying one expression -/

section

variable {job : Job} {work : Applier} {e : Expr} {setting : Setting} {s : Session} {q : Question}

/-- The session one level deeper. -/
def Session.deeper (job : Job) (rule : Option String) (location : Location) (s : Session) : Session :=
  { s with
    depth := s.depth + 1
    entered := Mark.inside s.entered rule location
    counts := if job.options.counting then { s.counts with deepest := max s.counts.deepest (s.depth + 1) } else s.counts }

/-- The session back on the level of another one, under the mark of that one if it was left for a rule. -/
def Session.back (s : Session) (rule : Option String) (before : Session) : Session :=
  { s with depth := s.depth - 1, entered := if rule.isSome then before.entered else s.entered }

theorem on_nested {work : Eval Attempt} {rule : Option String} {location : Location} :
    (Eval.nested job rule location work).on s =
      let worked := work.on (s.deeper job rule location)
      (worked.1, worked.2.back rule s) := by
  have hdeeper : s.deeper job rule location = ((Eval.count job fun c => { c with deepest := max c.deepest (s.depth + 1) }).on
      { s with depth := s.depth + 1, entered := Mark.inside s.entered rule location }).2 := by
    rw [Eval.on_count]
    unfold Session.deeper
    split <;> rfl
  rw [hdeeper]
  rfl

/-- The session in which memory had no answer, if it was asked. -/
def Session.missed (job : Job) (s : Session) : Session :=
  { s with counts := if job.options.counting && job.options.remember then { s.counts with misses := s.counts.misses + 1 }
      else s.counts }

theorem on_lookUp_of_none (hf : job.options.remember = true → s.memory.find? q = none) :
    (Eval.lookUp job q).on s = (none, s.missed job) := by
  unfold Eval.lookUp Session.missed
  cases hr : job.options.remember with
  | false => simp
  | true =>
    rw [if_pos rfl, Eval.on_bind, Eval.on_get, hf hr]
    simp only [Eval.on_bind, Eval.on_count, Eval.on_pure, Bool.and_true]
    split <;> rfl

/-- The session with a verdict remembered, if verdicts are. -/
def Session.recording (job : Job) (q : Question) (a : Attempt) (s : Session) : Session :=
  { s with memory := match a with
      | .settled verdict => if job.options.remember then s.memory.insert q verdict else s.memory
      | _ => s.memory }

theorem Session.memory_recording (hr : job.options.remember = true) (v : Verdict) :
    (s.recording job q (.settled v)).memory = s.memory.insert q v := if_pos hr

theorem Session.memory_recording_of_not {a : Attempt} (h : ¬ (job.options.remember = true ∧ ∃ v, a = .settled v)) :
    (s.recording job q a).memory = s.memory := by
  rcases a with v | suspension | error
  · exact if_neg fun hr => h ⟨hr, v, rfl⟩
  · rfl
  · rfl

theorem on_remember {a : Attempt} : (Eval.remember job q a).on s = (a.awaiting job q, s.recording job q a) := by
  unfold Eval.remember Attempt.awaiting Session.recording
  rcases a with v | (_ | suspension) | error <;> cases job.options.remember <;> rfl

/-- What is remembered of an expression is not worked out. -/
theorem on_remembering_of_some {v : Verdict} (hr : job.options.remember = true) (hf : s.memory.find? (.of e setting) = some v) :
    ∃ s', s.Near s' ∧ ∀ work, (remembering job work e setting).on s = (.settled v, s') := by
  let answer : Eval (Option Verdict) := do
    Eval.count job fun c => { c with hits := c.hits + 1 }
    Eval.emit job (.answered setting.location)
    return some v
  have hanswer : (Eval.lookUp job (.of e setting)).on s = answer.on s := by
    unfold Eval.lookUp
    rw [if_pos hr, Eval.on_bind, Eval.on_get, hf]
    rfl
  refine ⟨(answer.on s).2, ?_, fun work => ?_⟩
  · have hcount : Eval.Books (Eval.count job fun c => { c with hits := c.hits + 1 }) :=
      .count (fun _ => rfl) (fun _ => rfl) fun _ => rfl
    exact (hcount s).trans (Eval.Books.emit _)
  · unfold remembering
    rw [Eval.on_bind, hanswer]
    rfl

/-- A reference to the rule entered last is signalled, not worked out. -/
theorem on_remembering_of_reenters (hf : job.options.remember = true → s.memory.find? (.of e setting) = none)
    (hre : s.reenters e setting.location = true) :
    ∃ s', s'.memory = s.memory ∧ (job.options.counting = true → 0 < s'.counts.reentries) ∧
      ∀ work, (remembering job work e setting).on s = (.recursion none, s') := by
  refine ⟨((Eval.reportReentry job (e.reference?.getD "") setting.location).on (s.missed job)).2, ?_, fun hc => ?_,
    fun work => ?_⟩
  · simp only [Eval.reportReentry, Eval.on_bind, Eval.on_note, Eval.on_count, Eval.on_emit]
    split <;> split <;> rfl
  · simp only [Eval.reportReentry, Eval.on_bind, Eval.on_note, Eval.on_count, hc, if_true, Eval.on_emit]
    split <;> exact Nat.succ_pos _
  · unfold remembering
    rw [Eval.on_bind, on_lookUp_of_none hf]
    show Eval.on (if (s.missed job).reenters e setting.location then _ else _) (s.missed job) = _
    rw [show (s.missed job).reenters e setting.location = true from hre, if_pos rfl]
    rfl

/-- An expression that is neither remembered nor the rule entered last is worked out one level deeper. -/
theorem on_remembering (hf : job.options.remember = true → s.memory.find? (.of e setting) = none)
    (hn : s.reenters e setting.location = false) {a : Attempt} {t : Session}
    (hw : (work e setting).on ((s.missed job).deeper job e.reference? setting.location) = (a, t)) :
    (remembering job work e setting).on s =
      (a.awaiting job (.of e setting), (t.back e.reference? s).recording job (.of e setting) a) := by
  unfold remembering
  rw [Eval.on_bind, on_lookUp_of_none hf]
  show Eval.on (if (s.missed job).reenters e setting.location then _ else _) (s.missed job) = _
  rw [show (s.missed job).reenters e setting.location = false from hn, if_neg Bool.false_ne_true, Eval.on_bind, on_nested,
    hw, on_remember]
  rfl

/-- What is firm awaits nothing. -/
theorem Attempt.Firm.awaiting {input : List Char} {G : Ground input} {a : Attempt} (h : a.Firm G) : a.awaiting job q = a := by
  unfold Attempt.awaiting
  split
  · exact h.elim
  · rfl

/-- Where it matters how an expression is worked out, it is worked out. -/
theorem of_remembering_ne {work' : Applier}
    (hne : (remembering job work e setting).on s ≠ (remembering job work' e setting).on s) :
    (job.options.remember = true → s.memory.find? (.of e setting) = none) ∧ s.reenters e setting.location = false ∧
      (work e setting).on ((s.missed job).deeper job e.reference? setting.location) ≠
        (work' e setting).on ((s.missed job).deeper job e.reference? setting.location) := by
  have hf : job.options.remember = true → s.memory.find? (.of e setting) = none := by
    intro hr
    by_contra hsome
    obtain ⟨v, hv⟩ := Option.ne_none_iff_exists'.1 hsome
    obtain ⟨s', -, hon⟩ := on_remembering_of_some hr hv
    exact hne ((hon _).trans (hon _).symm)
  have hn : s.reenters e setting.location = false := by
    by_contra hre
    obtain ⟨s', -, -, hon⟩ := on_remembering_of_reenters hf (Bool.not_eq_false _ ▸ hre)
    exact hne ((hon _).trans (hon _).symm)
  refine ⟨hf, hn, fun heq => hne ?_⟩
  rw [on_remembering hf hn heq, on_remembering hf hn rfl]

/-- Calls are made where an expression is worked out. -/
theorem calls_evaluate {apply : Applier} {call : Call}
    (h : Procedure.Calls (fun apply => remembering job (evaluate job apply) e setting) apply s call) :
    (job.options.remember = true → s.memory.find? (.of e setting) = none) ∧ s.reenters e setting.location = false ∧
      Procedure.Calls (fun apply => evaluate job apply e setting) apply
        ((s.missed job).deeper job e.reference? setting.location) call := by
  obtain ⟨other, hsame, hne⟩ := h
  obtain ⟨hf, hn, hne⟩ := of_remembering_ne hne
  exact ⟨hf, hn, other, hsame, hne⟩

/-- What trying an expression hinges on is called for where the expression is worked out. -/
theorem hinges_remembering {apply : Applier} {call : Call}
    (hf : job.options.remember = true → s.memory.find? (.of e setting) = none)
    (hn : s.reenters e setting.location = false) (h : Procedure.Hinges (fun apply => evaluate job apply e setting) apply
      ((s.missed job).deeper job e.reference? setting.location) call) :
    Procedure.Hinges (fun apply => remembering job (evaluate job apply) e setting) apply s call := by
  intro error
  obtain ⟨other, hsame, hother⟩ := h error
  refine ⟨other, hsame, ?_⟩
  cases hw : (evaluate job other e setting).on ((s.missed job).deeper job e.reference? setting.location) with
  | mk a t =>
    have ha : a = .broken error := by
      have := congrArg Prod.fst hw
      exact this.symm.trans hother
    rw [on_remembering hf hn hw, ha]
    rfl

end

/-! ## Invariants -/

/-- Where an expression is tried for a procedure, it has an outcome with `F` and keeps up the invariant,
unless the alarm has rung. A rule that comes back to itself rings it, if any does. -/
structure Applier.Obeys (apply : Applier) (job : Job) (alarm : Alarm) (A : Expr → Setting → Expr → Setting → Prop)
    (F : Attempt → Prop) (I : Session → Prop) : Prop where
  persists : ∀ e setting, alarm.Persists (apply e setting)
  near : ∀ {s t : Session}, s.Near t → I s → I t
  signals : ∀ {e setting e' setting' s}, A e setting e' setting' → I s → s.reenters e setting.location = true →
    job.options.counting = true ∧ ∀ c : Counts, 0 < c.reentries → alarm.rung c
  attempt : ∀ {e setting e' setting' s}, A e setting e' setting' → I s → alarm.rung ((apply e setting).on s).2.counts ∨
    F ((apply e setting).on s).1 ∧ I ((apply e setting).on s).2

namespace Concur

variable {α β : Type} [Breakable α] [Breakable β] {job job' : Job} {A : Expr → Setting → Expr → Setting → Prop}
  {F : Attempt → Prop} {c : α → β} {Q : α → Prop} {x : Procedure α} {y : Procedure β} {apply apply' : Applier} {alarm : Alarm}
  {I : Session → Prop} {s s' : Session} {call : Call}

/-- What every expression keeps up, the procedure keeps up. -/
theorem ends (hx : Concur job job' A F c Q x y) (h : apply.Obeys job alarm A F I) (hs : I s) :
    alarm.rung ((x apply).on s).2.counts ∨ Q ((x apply).on s).1 ∧ I ((x apply).on s).2 := by
  induction hx generalizing s with
  | gives hQ hx _ =>
    obtain ⟨t, hn, hon⟩ := hx s
    rw [hon apply]
    exact .inr ⟨hQ, h.near hn hs⟩
  | @begins _ _ wary e _ setting _ _ _ hA hx _ _ ih =>
    by_cases hre : wary ∧ s.reenters e setting.location = true
    · obtain ⟨hc, hl⟩ := h.signals hA hs hre.2
      exact .inl (hx.signal s hre.1 hre.2 alarm apply h.persists hc hl)
    · obtain ⟨t, hn, hon⟩ := hx.run s hre
      rw [hon apply, Eval.on_bind]
      rcases h.attempt hA (h.near hn hs) with hrung | ⟨hF, hI⟩
      · exact .inl (hx.persists _ h.persists _ hrung)
      · exact ih _ hF hI

/-- The procedure makes its calls for what is asked for. The one that concurs with it makes the same calls
in sessions that are alike and have the invariant. -/
theorem calls (hx : Concur job job' A F c Q x y)
    (hA : ∀ {e setting e' setting'}, A e setting e' setting' → e = e' ∧ setting = setting')
    (hagree : ∀ e setting, Eval.Agree (apply e setting) (apply' e setting)) (h : apply'.Obeys job' alarm A F I)
    (halike : s.Alike s') (hs : I s') (hn : ¬ alarm.rung ((y apply').on s').2.counts) (hcall : x.Calls apply s call) :
    A call.expr call.setting call.expr call.setting ∧ ∃ t, call.session.Alike t ∧ I t ∧
      ¬ alarm.rung ((apply' call.expr call.setting).on t).2.counts := by
  induction hx generalizing s s' with
  | gives _ hx _ =>
    obtain ⟨other, -, hne⟩ := hcall
    obtain ⟨t, -, hon⟩ := hx s
    exact absurd ((hon other).trans (hon apply).symm) hne
  | @begins _ _ wary e _ setting _ _ _ hasked hx hy _ ih =>
    obtain ⟨rfl, rfl⟩ := hA hasked
    by_cases hre : wary ∧ s'.reenters e setting.location = true
    · obtain ⟨hc, hl⟩ := h.signals hasked hs hre.2
      exact absurd (hy.signal s' hre.1 hre.2 alarm apply' h.persists hc hl) hn
    have hreenters : s.reenters e setting.location = s'.reenters e setting.location := by
      unfold Session.reenters
      rw [halike.entered]
    obtain ⟨t, hnear, hon⟩ := hx.run s fun h => hre ⟨h.1, hreenters ▸ h.2⟩
    obtain ⟨t', hnear', hon'⟩ := hy.run s' hre
    have hI := h.near hnear' hs
    have htt : t.Alike t' :=
      ⟨hnear.memory.trans (halike.memory.trans hnear'.memory.symm),
        hnear.entered.trans (halike.entered.trans hnear'.entered.symm)⟩
    rw [hon' apply', Eval.on_bind] at hn
    have hnot : ¬ alarm.rung ((apply' e setting).on t').2.counts := fun hr => hn (hy.persists _ h.persists _ hr)
    by_cases hthis : (⟨e, setting, t⟩ : Call) = call
    · subst hthis
      exact ⟨hasked, t', htt, hI, hnot⟩
    -- what comes of this expression is the same, so the call is made later on
    obtain ⟨hF, hI'⟩ := (h.attempt hasked hI).resolve_left hnot
    obtain ⟨hsame', halike'⟩ := hagree e setting t t' htt
    obtain ⟨other, hsame, hne⟩ := hcall
    refine ih _ hF halike' hI' hn ⟨other, hsame, fun heq => hne ?_⟩
    rw [hon other, hon apply, Eval.on_bind, Eval.on_bind, hsame e setting t hthis, hsame', heq]

end Concur

end Packrat

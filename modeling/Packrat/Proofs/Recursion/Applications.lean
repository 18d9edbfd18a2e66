/-
Direct left recursion is iteration wherever a rule is applied in the course of a parse. The body of a rule that begins
with itself is tried for the rule only, and its recursive alternative for the body only; and whatever is tried, verdicts
on that alternative are remembered only where one on the body is. So wherever the body is worked out, it iterates. What
is remembered of the rule or of its body is what came of the body where it was worked out before.
-/
import Packrat.Proofs.Memory.Origins
import Packrat.Proofs.Recursion.Iteration

namespace Packrat

open Stance

/-- What counts as the same as a reference is that reference. -/
theorem Expr.eq_rule_of_content {e : Expr} {name : String} (h : e.content = (Expr.rule name).content) : e = .rule name := by
  cases e <;> simp_all [content]

namespace Loop

variable {r : Loop} {job : Job} {root : Expr} {levels : Nat} {call : Call}

/-! ## What is tried in a parse -/

/-- The rule is the one entered last, at the place of the call, which is made inside of it. -/
structure Entered (r : Loop) (call : Call) : Prop where
  mark : call.session.entered = some (r.name, call.setting.location)
  rule : call.setting.rule = some r.name

/-- A call as a parse makes it: what is tried does not contain the recursive alternative, or it is the body of the
rule that was just entered, or that alternative itself. -/
structure InOrder (r : Loop) (job : Job) (call : Call) : Prop where
  backed : r.Backed call.session.memory
  clears : r.Clears job call.setting
  tried : r.Apart call.expr ∨ (call.expr = r.body ∨ call.expr = r.step) ∧ r.Entered call

theorem InOrder.of_alike {e : Expr} {setting : Setting} {s t : Session} (h : s.Alike t) (hs : r.InOrder job ⟨e, setting, s⟩) :
    r.InOrder job ⟨e, setting, t⟩ where
  backed := h.memory ▸ hs.backed
  clears := hs.clears
  tried := hs.tried.imp id fun ⟨he, hentered⟩ => ⟨he, h.entered ▸ hentered.mark, hentered.rule⟩

/-- Nothing but calls in order is answered. -/
noncomputable def ordered (r : Loop) (job : Job) (levels : Nat) : Applier :=
  (applyWithin job levels).only (r.InOrder job) .noStart

theorem ordered_agree (e : Expr) (setting : Setting) : Eval.Agree (r.ordered job levels e setting) (r.ordered job levels e setting) := by
  intro s t h
  by_cases hs : r.InOrder job ⟨e, setting, s⟩
  · rw [ordered, Applier.on_only hs, Applier.on_only (hs.of_alike h)]
    exact Eval.Agree.applyWithin levels e setting s t h
  · have ht : ¬ r.InOrder job ⟨e, setting, t⟩ := fun ht => hs (ht.of_alike h.symm)
    rw [ordered, Applier.on_only_of_not hs, Applier.on_only_of_not ht]
    exact ⟨rfl, h⟩

/-- What is tried in order yields what it yields. -/
theorem ordered_yields {k : Stance} (ha : ∀ c, ¬ k.alarm.rung c) {e : Expr} {setting : Setting} {Q : Attempt → Prop}
    (hs : ∀ s, k.Fits s → r.InOrder job ⟨e, setting, s⟩) (h : k.Yields True (applyWithin job levels e setting) Q) :
    k.Yields True (r.ordered job levels e setting) Q := by
  refine fun s => ⟨fun hrung => absurd hrung (ha _), fun _ hfits => ?_⟩
  rw [ordered, Applier.on_only (hs s hfits)]
  exact (h s).2 trivial hfits

section

variable (hg : r.In job.grammar) {mark : Mark} {depth : Nat}
include hg

theorem ordered_orders : r.Orders job mark depth (r.ordered job levels) := fun e setting he hc =>
  ordered_yields (fun _ => id) (fun _ hs => ⟨hs.memory, hc, .inl he⟩) ((applyWithin_orders hg levels).1 mark depth e setting he hc)

/-- The body of the rule that was just entered is answered. -/
theorem ordered_body {setting : Setting} (hc : r.Clears job setting) (hm : mark = some (r.name, setting.location))
    (hr : setting.rule = some r.name) :
    (r.stance job mark depth).Yields True (r.ordered job levels r.body setting) (r.Neat job) :=
  ordered_yields (fun _ => id) (fun _ hs => ⟨hs.memory, hc, .inr ⟨.inl rfl, hs.mark.trans hm, hr⟩⟩)
    ((applyWithin_orders hg levels).2 mark depth setting hc hm)

end

/-- Its recursive alternative is answered, and set aside if there are levels left. -/
theorem ordered_step {mark : Mark} {depth : Nat} {setting : Setting} (hc : r.Clears job setting)
    (hm : mark = some (r.name, setting.location)) (hr : setting.rule = some r.name) :
    ((r.stance job mark depth).asking (.of r.body setting)).Yields True (r.ordered job levels r.step setting) fun a =>
      a = .recursion (some (r.waiting job setting)) ∨ ∃ failure, a = .settled (.failed failure) := by
  refine ordered_yields (fun _ => id) (fun _ hs => ⟨hs.memory.1, hc, .inr ⟨.inr rfl, hs.mark.trans hm, hr⟩⟩) ?_
  cases levels with
  | zero => exact .pure fun _ => .inr ⟨_, rfl⟩
  | succ levels => exact (step_waits (k := r.stance job mark depth) (fun _ => id) hm levels).post fun _ _ => .inl

/-- Where the rule was entered, the recursive alternative tries nothing. -/
theorem not_calls_step {apply : Applier} {setting : Setting} {s : Session} (hs : s.entered = some (r.name, setting.location)) :
    ¬ Procedure.Calls (fun apply => evaluate job apply r.step setting) apply s call := by
  let run := Run.new (.rule r.name :: r.rest) false setting 0
  have hre : run.done = 0 ∧ s.reenters (.rule r.name) run.here.location = true := by
    refine ⟨rfl, ?_⟩
    show (s.entered == some (r.name, setting.location)) = true
    rw [hs, beq_self_eq_true]
  have hon (apply : Applier) : (evaluate job apply r.step setting).on s =
      (run.suspend, ((Eval.reportReentry job r.name setting.location).on s).2) := by
    show (run.finish job apply).on s = _
    unfold Run.finish Run.fuel Run.drive
    show Eval.on ((get >>= fun s => if run.done = 0 ∧ s.reenters (.rule r.name) run.here.location = true then _ else _) >>= _) s = _
    rw [Eval.on_bind, Eval.on_bind, Eval.on_get, if_pos hre]
    rfl
  rintro ⟨other, -, hne⟩
  exact hne ((hon other).trans (hon apply).symm)

/-- What a step yields where nothing else is known of the session, it yields at any depth. -/
theorem result_of_leaves {x : Eval Attempt} {s : Session} {memory : Memory → Prop} {Q : Attempt → Prop}
    {M : Attempt → Memory → Prop} (hagree : Eval.Agree x x)
    (h : (⟨job, .none, memory, s.entered, 0⟩ : Stance).Leaves True x Q M) (hs : memory s.memory) : Q (x.on s).1 := by
  let shallow : Session := { s with depth := 0 }
  have hsame : (x.on s).1 = (x.on shallow).1 := (hagree s shallow ⟨rfl, rfl⟩).1
  rw [hsame]
  rcases (h shallow).2 trivial ⟨hs, rfl, rfl, fun _ => Nat.zero_le _⟩ with hrung | ⟨hQ, -⟩
  · exact hrung.elim
  · exact hQ

theorem Neat.ne_broken {a : Attempt} (h : r.Neat job a) : a ≠ .broken .noStart := by
  rintro rfl
  exact h rfl

/-- All calls of a parse are in order. -/
theorem inOrder_of_applies (hg : r.In job.grammar) (hroot : r.Apart root) (h : job.Applies root levels call) :
    r.InOrder job call := by
  induction h with
  | root => exact ⟨backed_empty, fun s hs => hg.skipper s hs, .inl hroot⟩
  | @inner levels call next _ hcalls ih =>
    obtain ⟨hfresh, -, hcalls⟩ := calls_evaluate hcalls
    have hagree : Eval.Agree (evaluate job (r.ordered job levels) call.expr call.setting)
        (evaluate job (r.ordered job levels) call.expr call.setting) := Eval.Agree.evaluate ordered_agree _ _
    -- nothing is found malformed, although calls that are not in order are answered so
    suffices hn : ((evaluate job (r.ordered job levels) call.expr call.setting).on (call.within job)).1 ≠ .broken .noStart from
      (Procedure.Flat.evaluate call.expr call.setting).calls_only hn hcalls
    rcases ih.tried with he | ⟨he | he, hentered⟩
    · refine Neat.ne_broken (result_of_leaves hagree (yields_iff.1 (evaluate_orders hg he ih.clears (ordered_orders hg)
        fun hrule inside hinside hl hr => ordered_body hg hinside ?_ hr)) ih.backed)
      show Mark.inside call.session.entered call.expr.reference? call.setting.location = _
      rw [hrule, hl]
      rfl
    · have hmark : (call.within job).entered = some (r.name, call.setting.location) := by
        show Mark.inside call.session.entered call.expr.reference? call.setting.location = _
        rw [he]
        exact hentered.mark
      have hnot : job.options.remember = true → call.session.memory.find? (.of r.body call.setting) = none := he ▸ hfresh
      rw [he] at hagree ⊢
      rcases result_of_leaves hagree (tryBody_closes hg (ordered_orders hg) ih.clears
        (ordered_step ih.clears hmark hentered.rule)) ⟨ih.backed, hnot⟩ with hneat | hrecursion
      · exact hneat.ne_broken
      · rw [hrecursion]
        exact nofun
    · rw [he] at hcalls
      exact absurd hcalls (not_calls_step hentered.mark)

/-! ## Where the rule is tried -/

/-- The call of the body that trying the rule comes to. -/
def entry (r : Loop) (job : Job) (call : Call) : Call where
  expr := r.body
  setting := r.inside job call.setting
  session := ((Eval.count job fun c => { c with rules := c.rules + 1 }).on
    ((Eval.emit job (.enter r.name call.setting.location)).on (call.within job)).2).2

/-- The call of the rule is worked out. -/
structure Working (r : Loop) (job : Job) (call : Call) : Prop where
  expr : call.expr = .rule r.name
  fresh : call.Fresh job
  away : call.session.entered ≠ some (r.name, call.setting.location)

namespace Working

theorem not_reenters (h : r.Working job call) : call.session.reenters call.expr call.setting.location = false := by
  rw [h.expr]
  show (call.session.entered == some (r.name, call.setting.location)) = false
  simpa using h.away

/-- Working out the rule is to try its body. -/
theorem on_evaluate (h : r.Working job call) (hg : r.In job.grammar) (apply : Applier) :
    ∃ s, (evaluate job apply call.expr call.setting).on (call.within job) =
      (wrapAttempt job r.name ((apply r.body (r.inside job call.setting)).on (r.entry job call).session).1, s) := by
  have hon : evaluate job apply call.expr call.setting = tryRule job apply r.name call.setting := by
    rw [h.expr]
    rfl
  rw [hon]
  unfold tryRule
  rw [hg.body]
  exact ⟨_, rfl⟩

/-- The body is called for. -/
theorem applies_entry (h : r.Working job call) (hg : r.In job.grammar) (happlies : job.Applies root (levels + 1) call) :
    job.Applies root levels (r.entry job call) := by
  classical
  refine .inner happlies (hinges_remembering h.fresh h.not_reenters fun error => ?_).calls
  let other : Applier := fun e setting s => if (⟨e, setting, s⟩ : Call) = r.entry job call then (.broken error, s)
    else applyWithin job levels e setting s
  obtain ⟨s, hon⟩ := h.on_evaluate hg other
  refine ⟨other, fun e setting s hne => if_neg hne, ?_⟩
  have hother : (other r.body (r.inside job call.setting)).on (r.entry job call).session = (.broken error, (r.entry job call).session) :=
    if_pos rfl
  rw [show (evaluate job other call.expr call.setting).on ((call.session.missed job).deeper job call.expr.reference?
    call.setting.location) = _ from hon, hother]
  rfl

/-- The outcome is that of the body. -/
theorem outcome (h : r.Working job call) (hg : r.In job.grammar) : call.outcome job (levels + 1) =
    (wrapAttempt job r.name ((r.entry job call).outcome job levels)).awaiting job call.question := by
  obtain ⟨s, hon⟩ := h.on_evaluate hg (applyWithin job levels)
  rw [Call.outcome, applyWithin, on_remembering h.fresh h.not_reenters hon]
  rfl

end Working

/-! ## Where the body was worked out -/

/-- An expression that counts as the same as the body contains the recursive alternative. -/
theorem Apart.not_same_body {e : Expr} (h : r.Apart e) : e.content ≠ r.body.content := by
  intro hsame
  cases e with
  | choice alternatives =>
    have hparts : Expr.contentAll alternatives = Expr.contentAll (r.step :: r.bases) := by
      simpa [body, Expr.content] using hsame
    cases alternatives with
    | nil => simp [Expr.contentAll] at hparts
    | cons e others =>
      have hstep : e.content = r.step.content := by
        simp only [Expr.contentAll, List.cons.injEq] at hparts
        exact hparts.1
      have hne := (show r.Apart e from h.of_parts List.mem_cons_self).not_same
      rw [Expr.same_iff.2 hstep] at hne
      cases hne
  | _ => simp [body, Expr.content] at hsame

/-- A call in order for what counts as the same as the body is one for the body of the rule that was just entered. -/
theorem InOrder.of_same_body (h : r.InOrder job call) (hsame : call.expr.content = r.body.content) :
    call.expr = r.body ∧ r.Entered call := by
  rcases h.tried with hapart | ⟨he | he, hentered⟩
  · exact absurd hsame hapart.not_same_body
  · exact ⟨he, hentered⟩
  · rw [he] at hsame
    simp [body, step, Expr.content] at hsame

/-- The call is one of the parse, where the body is worked out on the question that the rule in the setting asks of it. -/
structure WorkedOut (r : Loop) (job : Job) (root : Expr) (levels : Nat) (setting : Setting) (worked : Call) : Prop where
  applies : job.Applies root (levels + 1) worked
  expr : worked.expr = r.body
  fresh : worked.Fresh job
  same : (Question.of r.body (r.inside job setting) == worked.question) = true

/-- Where the body is worked out it iterates from the first value among the other alternatives. -/
theorem WorkedOut.iterates {setting : Setting} {worked : Call} (h : r.WorkedOut job root levels setting worked)
    (hg : r.In job.grammar) (hp : job.grammar.production? r.name = none) (hroot : r.Apart root) {b : Tree} {t : Session}
    (hb : (firstValue (applyWithin job levels) worked.setting r.bases).on worked.session = (some b, t)) :
    r.Iterates job (applyWithin job levels) worked.setting b t (worked.outcome job (levels + 1)) := by
  have horder := inOrder_of_applies hg hroot h.applies
  obtain ⟨-, hmark, hrule⟩ := horder.of_same_body (by rw [h.expr])
  have hnot : job.options.remember = true → worked.session.memory.find? (.of r.body worked.setting) = none := h.expr ▸ h.fresh
  obtain ⟨a, u, hiterates, hcomes⟩ := body_comes hp hb horder.backed hmark hrule hnot
  rw [Call.outcome, h.expr, (hcomes _ (.refl _)).1]
  exact hiterates

/-- What iterates to an attempt iterates to the verdict that this leaves. -/
theorem Iterates.leaves {apply : Applier} {setting : Setting} {b : Tree} {s : Session} {a : Attempt} {v : Verdict}
    (h : r.Iterates job apply setting b s a) (hv : a.LeavesVerdict v) : r.Iterates job apply setting b s (.settled v) := by
  rcases h.matched_or_broken with ⟨tree, rfl⟩ | ⟨error, rfl⟩
  · obtain rfl : Verdict.matched tree = v := hv
    exact h
  · exact hv.elim

/-- What an attempt comes to if the body does what it did where it was worked out: it iterates from the first value among the
other alternatives, and the rule has the value that this comes to, or ends in the grammar error that it ends in. -/
def Grown (r : Loop) (job : Job) (levels : Nat) (worked : Call) (a : Attempt) : Prop :=
  ∀ b t, (firstValue (applyWithin job levels) worked.setting r.bases).on worked.session = (some b, t) →
    (∃ v, r.Iterates job (applyWithin job levels) worked.setting b t (.settled (.matched v)) ∧ a = .settled (.matched v.widened)) ∨
      ∃ error, r.Iterates job (applyWithin job levels) worked.setting b t (.broken error) ∧ a = .broken error

/-- A verdict that is left by the attempt is no other. -/
theorem Grown.leaves {worked : Call} {a : Attempt} {v : Verdict} (h : r.Grown job levels worked a) (hv : a.LeavesVerdict v) :
    r.Grown job levels worked (.settled v) := by
  intro b t hb
  rcases h b t hb with ⟨tree, hiterates, rfl⟩ | ⟨error, -, rfl⟩
  · obtain rfl : Verdict.matched tree.widened = v := hv
    exact .inl ⟨tree, hiterates, rfl⟩
  · exact hv.elim

/-- The rule wraps what the body came to. -/
theorem grown_wrapAttempt (hp : job.grammar.production? r.name = none) {worked : Call} {a : Attempt} {q : Question}
    (h : ∀ b t, (firstValue (applyWithin job levels) worked.setting r.bases).on worked.session = (some b, t) →
      r.Iterates job (applyWithin job levels) worked.setting b t a) :
    r.Grown job levels worked ((wrapAttempt job r.name a).awaiting job q) := by
  intro b t hb
  have hiterates := h b t hb
  rcases hiterates.matched_or_broken with ⟨v, rfl⟩ | ⟨error, rfl⟩
  · refine .inl ⟨v, hiterates, ?_⟩
    simp only [wrapAttempt, Grammar.produce, hp]
    rfl
  · exact .inr ⟨error, hiterates, rfl⟩

/-- Where the rule is worked out, it comes to what the body came to where it was worked out, which is there and then or before.
Or there was no level of nesting left for the body. -/
theorem Working.grown (h : r.Working job call) (hg : r.In job.grammar) (hp : job.grammar.production? r.name = none)
    (hroot : r.Apart root) (happlies : job.Applies root (levels + 1) call) :
    (levels = 0 ∧ call.outcome job (levels + 1) = .failure (.tooDeep job.options.depthLimit) call.setting.location) ∨
      ∃ levels' worked, r.WorkedOut job root levels' call.setting worked ∧
        ((r.entry job call).Fresh job → levels = levels' + 1 ∧ worked = r.entry job call) ∧
        r.Grown job levels' worked (call.outcome job (levels + 1)) := by
  rw [h.outcome hg]
  have hentry := h.applies_entry hg happlies
  cases levels with
  | zero => exact .inl ⟨rfl, rfl⟩
  | succ levels =>
    refine .inr ?_
    by_cases hfresh : (r.entry job call).Fresh job
    · have hworked : r.WorkedOut job root levels call.setting (r.entry job call) := ⟨hentry, rfl, hfresh, BEq.rfl⟩
      exact ⟨levels, _, hworked, fun _ => ⟨rfl, rfl⟩, grown_wrapAttempt hp fun b t hb => hworked.iterates hg hp hroot hb⟩
    · obtain ⟨v, s, hv, -, hon⟩ := Call.recalls hfresh levels
      obtain ⟨levels', worked, hworked, hfresh', hsame, hleaves⟩ := hentry.earned.find hv
      have hexpr : worked.expr.content = r.body.content := (congrArg Question.expr (Question.beq_iff.1 hsame)).symm
      have hout : r.WorkedOut job root levels' call.setting worked :=
        ⟨hworked, ((inOrder_of_applies hg hroot hworked).of_same_body hexpr).1, hfresh', hsame⟩
      refine ⟨levels', worked, hout, fun hf => absurd hf hfresh, grown_wrapAttempt hp fun b t hb => ?_⟩
      rw [show (r.entry job call).outcome job (levels + 1) = .settled v from congrArg Prod.fst hon]
      exact (hout.iterates hg hp hroot hb).leaves hleaves

/-! ## Applications -/

theorem WorkedOut.of_same {setting setting' : Setting} {worked : Call} (h : r.WorkedOut job root levels setting' worked)
    (hsame : (Question.of (.rule r.name) setting == .of (.rule r.name) setting') = true) :
    r.WorkedOut job root levels setting worked :=
  ⟨h.applies, h.expr, h.fresh, (BEq.congr_left (job.within_beq r.name r.body hsame)).trans h.same⟩

/-- The call that a remembered verdict on the rule stems from worked the rule out. -/
theorem Working.of_leaves {worked : Call} {v : Verdict} (hsame : (Question.of (.rule r.name) call.setting == worked.question) = true)
    (hfresh : worked.Fresh job) (hleaves : (worked.outcome job (levels + 1)).LeavesVerdict v) : r.Working job worked := by
  have hexpr : worked.expr = .rule r.name :=
    Expr.eq_rule_of_content (congrArg Question.expr (Question.beq_iff.1 hsame)).symm
  refine ⟨hexpr, hfresh, fun hmark => ?_⟩
  have hre : worked.session.reenters worked.expr worked.setting.location = true := by
    rw [hexpr]
    show (worked.session.entered == some (r.name, worked.setting.location)) = true
    rw [hmark, beq_self_eq_true]
  obtain ⟨s, -, -, hon⟩ := on_remembering_of_reenters hfresh hre
  rw [Call.outcome, applyWithin, hon] at hleaves
  exact hleaves

end Loop

namespace Loop

/-- Direct left recursion is iteration: wherever a parse applies the rule, but for references to the rule that is just being
entered, the body was worked out in that parse, and the outcome is what it iterated to there: if another alternative than the
recursive one was the first that did not fail and had a value, the rule has the value that this one iterates to, or ends in
the grammar error that a part behind it ends in. The body is worked out there and then, unless its outcome or that of
the rule is remembered. Only an outcome that is remembered may be that there was no level of nesting left for the body.
Definite outcomes are remembered. -/
theorem rule_iterates {r : Loop} {job : Job} {root : Expr} {levels : Nat} {call : Call} (hg : r.In job.grammar)
    (hp : job.grammar.production? r.name = none) (hroot : r.Apart root) (happlies : job.Applies root (levels + 2) call)
    (he : call.expr = .rule r.name) (haway : call.Fresh job → call.session.entered ≠ some (r.name, call.setting.location)) :
    ((∃ levels' worked, r.WorkedOut job root levels' call.setting worked ∧
        (call.Fresh job → (r.entry job call).Fresh job → levels' = levels ∧ worked = r.entry job call) ∧
        r.Grown job levels' worked (call.outcome job (levels + 2))) ∨
      ¬ call.Fresh job ∧ call.outcome job (levels + 2) = .failure (.tooDeep job.options.depthLimit) call.setting.location) ∧
    (job.options.remember = true → ∀ v, call.outcome job (levels + 2) = .settled v →
      ((applyWithin job (levels + 2) call.expr call.setting).on call.session).2.memory.find? call.question = some v) := by
  refine ⟨?_, fun hr v hv => Call.find?_of_outcome hr hv⟩
  by_cases hfresh : call.Fresh job
  · have hworking : r.Working job call := ⟨he, hfresh, haway hfresh⟩
    obtain ⟨⟨⟩, -⟩ | ⟨levels', worked, hworked, hown, hgrown⟩ := hworking.grown hg hp hroot happlies
    exact .inl ⟨levels', worked, hworked, fun _ hf => ⟨(Nat.succ.inj (hown hf).1).symm, (hown hf).2⟩, hgrown⟩
  · obtain ⟨v, s, hv, -, hon⟩ := Call.recalls hfresh (levels + 1)
    rw [show call.outcome job (levels + 2) = .settled v from congrArg Prod.fst hon]
    obtain ⟨levels', before, hbefore, hfresh', hsame, hleaves⟩ := happlies.earned.find hv
    rw [Call.question, he] at hsame
    have hworking := Working.of_leaves hsame hfresh' hleaves
    obtain ⟨-, ho⟩ | ⟨levels'', worked, hworked, -, hgrown⟩ := hworking.grown hg hp hroot hbefore
    · rw [ho] at hleaves
      refine .inr ⟨hfresh, ?_⟩
      have hlocation : call.setting.location = before.setting.location := congrArg Question.location (Question.beq_iff.1 hsame)
      rw [hlocation]
      exact congrArg Attempt.settled (Eq.symm hleaves)
    · rw [Call.question, hworking.expr] at hsame
      exact .inl ⟨levels'', worked, hworked.of_same hsame, fun hf => absurd hf hfresh, hgrown.leaves hleaves⟩

/-- Words one after the other. -/
def words : Loop := ⟨"a", [.rule "b"], [.rule "b"]⟩

def grammarOfWords : Grammar where
  start := "a"
  rules := [("a", words.body), ("b", .literal ['f', 'o', 'o'])]
  skipper := none
  overrides := []
  productions := []
  kinds := .empty

def jobOfWords : Job := .new grammarOfWords (.rule "a") .standard .nothing "foofoofoobar".toList

theorem words_in : words.In grammarOfWords :=
  .of_rules rfl (by decide) (by decide) (by decide) (by decide) (by decide)

/-- The words one after the other, each with those before it. -/
def nestedWords : Tree :=
  let foo (column : Nat) : Tree := .ofText "foo".toList ⟨0, column⟩
  .list (.own ⟨⟨0, 0⟩, ⟨0, 9⟩, "foofoofoo".toList⟩)
    [.list (.own ⟨⟨0, 0⟩, ⟨0, 6⟩, "foofoo".toList⟩) [foo 0, foo 3], foo 6]

/-- Looks ahead for the words and then reads them. -/
def wordsAhead : Expr := .sequence [.ahead (.rule "a"), .rule "a"]

def jobOfWordsAhead : Job := .new grammarOfWords wordsAhead .standard .nothing "foofoofoobar".toList

/-- The call is of the rule, is answered from memory and holds. -/
def recallsWords (levels : Nat) (call : Call) : Bool :=
  decide (2 ≤ levels) && call.expr == .rule "a" && (call.session.memory.find? call.question).isSome &&
    (call.outcome jobOfWordsAhead levels).holds

theorem rule_iterates_words :
    (let call : Call := ⟨.rule "a", .start, .start⟩;
      jobOfWords.Applies (.rule "a") 1024 call ∧ ∃ worked b t v, worked = words.entry jobOfWords call ∧
        (firstValue (applyWithin jobOfWords 1022) worked.setting words.bases).on worked.session = (some b, t) ∧
        words.Iterates jobOfWords (applyWithin jobOfWords 1022) worked.setting b t (.settled (.matched v)) ∧
        call.outcome jobOfWords 1024 = .settled (.matched v.widened) ∧ v.widened.same nestedWords = true ∧
        v.widened.span = nestedWords.span) ∧
    ∃ levels call, jobOfWordsAhead.Applies wordsAhead (levels + 2) call ∧ call.expr = .rule "a" ∧ ¬ call.Fresh jobOfWordsAhead ∧
      (call.outcome jobOfWordsAhead (levels + 2)).holds = true ∧
      ∃ levels' worked, words.WorkedOut jobOfWordsAhead wordsAhead levels' call.setting worked ∧
        words.Grown jobOfWordsAhead levels' worked (call.outcome jobOfWordsAhead (levels + 2)) := by
  refine ⟨⟨.root, ?_⟩, ?_⟩
  · let call : Call := ⟨.rule "a", .start, .start⟩
    have hgrown : (call.outcome jobOfWords 1024).tree?.any
        (fun tree => tree.same nestedWords && tree.span == nestedWords.span) = true := by decide +kernel
    have hsome : ((firstValue (applyWithin jobOfWords 1022) (words.entry jobOfWords call).setting words.bases).on
        (words.entry jobOfWords call).session).1.isSome = true := by decide +kernel
    obtain ⟨b, hb⟩ := Option.isSome_iff_exists.1 hsome
    obtain ⟨⟨levels', worked, -, hown, h⟩ | ⟨hnot, -⟩, -⟩ :=
      @rule_iterates words jobOfWords (.rule "a") 1022 call words_in rfl rfl .root rfl fun _ => nofun
    · obtain ⟨rfl, rfl⟩ := hown (fun _ => rfl) (fun _ => rfl)
      rcases h b _ (Prod.ext hb rfl) with ⟨v, hiterates, hv⟩ | ⟨error, -, hbroken⟩
      · rw [hv] at hgrown
        obtain ⟨hsame, hspan⟩ := Bool.and_eq_true_iff.1 hgrown
        exact ⟨_, b, _, v, rfl, Prod.ext hb rfl, hiterates, hv, hsame, eq_of_beq hspan⟩
      · rw [hbroken] at hgrown
        cases hgrown
    · exact absurd (fun _ => rfl) hnot
  · obtain ⟨levels, call, happlies, hrecalls⟩ := jobOfWordsAhead.exists_applies wordsAhead recallsWords
      fun heq => absurd (congrArg Attempt.holds heq) (by decide +kernel)
    simp only [recallsWords, Bool.and_eq_true, decide_eq_true_eq] at hrecalls
    obtain ⟨⟨⟨hlevels, hexpr⟩, hfound⟩, hholds⟩ := hrecalls
    obtain ⟨levels, rfl⟩ := Nat.exists_eq_add_of_le' hlevels
    have he : call.expr = .rule "a" := Expr.eq_rule_of_content (Expr.same_iff.1 hexpr)
    have hnot : ¬ call.Fresh jobOfWordsAhead := fun h => by
      rw [h rfl] at hfound
      cases hfound
    refine ⟨levels, call, happlies, he, hnot, hholds, ?_⟩
    obtain ⟨⟨levels', worked, hworked, -, hgrown⟩ | ⟨-, hdeep⟩, -⟩ :=
      @rule_iterates words jobOfWordsAhead wordsAhead levels call words_in rfl rfl happlies he fun h => absurd h hnot
    · exact ⟨levels', worked, hworked, hgrown⟩
    · rw [hdeep] at hholds
      cases hholds

/-- A letter with misfits behind it: a result of theirs is to be a node with two fields and has one
part only. -/
def misfits : Loop := ⟨"a", [.rule "t"], [.literal ['b']]⟩

def grammarOfMisfits : Grammar where
  start := "a"
  rules := [("a", misfits.body), ("t", .literal ['c'])]
  skipper := none
  overrides := []
  productions := [("t", ⟨["t"], ["f", "g"]⟩)]
  kinds := ⟨[("t", none)]⟩

def jobOfMisfits : Job := .new grammarOfMisfits (.rule "a") .standard .nothing ['b', 'c']

theorem misfits_in : misfits.In grammarOfMisfits :=
  .of_rules rfl (by decide) (by decide) (by decide) (by decide) (by decide)

/-- A rule whose first other alternative to hold has a value need not have one. -/
theorem rule_breaks_misfits : misfits.In jobOfMisfits.grammar ∧ jobOfMisfits.grammar.production? "a" = none ∧
    ((firstValue (applyWithin jobOfMisfits 1022) (misfits.inside jobOfMisfits .start) misfits.bases).on
      { Session.start with entered := some ("a", .origin) }).1.isSome = true ∧
    ((applyWithin jobOfMisfits 1024 (.rule "a") .start).on .start).1.holds = false := by
  refine ⟨misfits_in, rfl, ?_⟩
  decide +kernel

end Loop

end Packrat

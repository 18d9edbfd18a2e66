/-
The failure of a choice. Where every alternative of a choice fails or comes back to the rule around it, the choice reports
the failure among them that got furthest, the last one of those that got equally far. A choice that is itself an
alternative reports in the same way, so the outermost choice stops at the furthest place where any alternative of the
choices within it does. What is remembered of a choice is such a report as well, unless the choice was set aside and its
alternatives went on for it.
-/
import Packrat.Parse.Matcher
import Packrat.Proofs.Memory.Origins

namespace Packrat

/-! ## The furthest of several failures -/

/-- It got at least as far as the failures before it, and further than those behind it. -/
def Furthest (failures : List Failure) (g : Failure) : Prop :=
  ∃ before after, failures = before ++ g :: after ∧ (∀ f ∈ before, f.stop ≤ g.stop) ∧
    ∀ f ∈ after, f.stop < g.stop

section

variable {failures : List Failure} {f g : Failure} {tried : Tried}

theorem Furthest.mem (h : Furthest failures g) : g ∈ failures := by
  obtain ⟨before, after, rfl, -⟩ := h
  exact List.mem_append_right _ List.mem_cons_self

theorem Furthest.le (h : Furthest failures g) (hf : f ∈ failures) : f.stop ≤ g.stop := by
  obtain ⟨before, after, rfl, hbefore, hafter⟩ := h
  rcases List.mem_append.1 hf with hf | hf
  · exact hbefore f hf
  rcases List.mem_cons.1 hf with rfl | hf
  · exact Location.le_refl _
  · exact Location.le_of_lt (hafter f hf)

/-- What a choice keeps in mind is the furthest of the failures so far. -/
def Tried.Recalls (tried : Tried) (failures : List Failure) : Prop :=
  match tried.furthest with
  | none => failures = []
  | some g => Furthest failures g

theorem Tried.nothing_recalls : Tried.nothing.Recalls [] := rfl

theorem Tried.Recalls.failed (h : tried.Recalls failures) (f : Failure) : (tried.failed f).Recalls (failures ++ [f]) := by
  obtain ⟨furthest, recursion⟩ := tried
  cases furthest with
  | none =>
    obtain rfl : failures = [] := h
    exact ⟨[], [], rfl, nofun, nofun⟩
  | some g =>
    have h : Furthest failures g := h
    by_cases hreaches : g.stop ≤ f.stop
    -- the new failure takes over
    · rw [Tried.failed, if_pos (by simpa [Failure.reaches] using hreaches)]
      exact ⟨failures, [], rfl, fun f' hf' => Location.le_trans (h.le hf') hreaches, nofun⟩
    · rw [Tried.failed, if_neg (by simpa [Failure.reaches] using hreaches)]
      obtain ⟨before, after, rfl, hbefore, hafter⟩ := h
      refine ⟨before, after ++ [f], by simp, hbefore, fun f' hf' => ?_⟩
      rcases List.mem_append.1 hf' with hf' | hf'
      · exact hafter f' hf'
      · rw [List.mem_singleton.1 hf']
        exact Location.not_le.1 hreaches

end

/-! ## Attempts that come to nothing -/

namespace Attempt

/-- What an attempt failed with. -/
def failure? : Attempt → Option Failure
  | .settled (.failed failure) => some failure
  | _ => none

/-- The attempt failed, or came back to the rule around it. -/
def Declined : Attempt → Prop
  | .settled (.failed _) | .recursion _ => True
  | _ => False

theorem failure?_eq_some {a : Attempt} {f : Failure} (h : a.failure? = some f) : a = .settled (.failed f) := by
  unfold failure? at h
  split at h
  · cases h
    rfl
  · cases h

theorem declined_of_failure? {a : Attempt} {f : Failure} (h : a.failure? = some f) : a.Declined := by
  rw [failure?_eq_some h]
  trivial

/-- A verdict that is awaited does not change whether anything comes of the attempt. -/
theorem awaiting_declined {job : Job} {q : Question} {a : Attempt} : (a.awaiting job q).Declined ↔ a.Declined := by
  unfold awaiting
  split <;> rfl

theorem failure?_awaiting {job : Job} {q : Question} {a : Attempt} : (a.awaiting job q).failure? = a.failure? := by
  unfold awaiting
  split <;> rfl

end Attempt

/-- Something comes of resumed work. -/
theorem plantSeed_not_declined {job : Job} {apply : Applier} {suspension : Suspension} {seed : Tree} {s : Session} :
    ¬ ((plantSeed job apply suspension seed).on s).1.Declined := by
  unfold plantSeed
  simp only [Eval.on_bind]
  split
  · exact id
  · exact id
  · next hfailed hrecursion =>
    rw [Eval.on_pure]
    generalize Prod.fst _ = a at hfailed hrecursion ⊢
    rcases a with (t | why | span | failure) | suspension | error
    · exact id
    · exact id
    · exact id
    · exact absurd rfl (hfailed failure)
    · exact absurd rfl (hrecursion suspension)
    · exact id

/-! ## Alternatives -/

/-- The session in which the next alternative is tried after one that failed. -/
def Session.backtracked (job : Job) (failure : Failure) (location : Location) (s : Session) : Session :=
  { s with
    events := if job.options.tracing then s.events.push (.backtrack failure.stop location) else s.events
    counts := if job.options.counting then { s.counts with backtracks := s.counts.backtracks + 1 } else s.counts }

/-- The alternatives that a choice tries, each in its session. -/
def Job.trials (job : Job) (levels : Nat) (setting : Setting) : List Expr → Session → List Call
  | [], _ => []
  | alternative :: others, s =>
    ⟨alternative, setting, s⟩ :: match (applyWithin job levels alternative setting).on s with
      | (.settled (.failed failure), t) => job.trials levels setting others (t.backtracked job failure setting.location)
      | (.recursion _, t) => job.trials levels setting others t
      | _ => []

/-- The failures of the calls, in order. -/
def Job.failures (job : Job) (levels : Nat) (calls : List Call) : List Failure :=
  calls.filterMap fun call => (call.outcome job levels).failure?

section

variable {job : Job} {levels : Nat} {setting : Setting} {e : Expr} {alternatives : List Expr} {s : Session} {tried : Tried}
  {failures : List Failure} {call : Call} {calls : List Call} {a : Attempt} {f : Failure}

theorem Job.failures_cons : job.failures levels (call :: calls) =
    (call.outcome job levels).failure?.toList ++ job.failures levels calls := by
  unfold failures
  rw [List.filterMap_cons]
  cases (call.outcome job levels).failure? <;> rfl

theorem Job.mem_failures (hcall : call ∈ calls) (hf : (call.outcome job levels).failure? = some f) :
    f ∈ job.failures levels calls :=
  List.mem_filterMap.2 ⟨call, hcall, hf⟩

/-- All alternatives were tried and came to nothing; the choice has kept the furthest failure in mind, that of the
failures before and theirs. -/
structure Exhaustion (job : Job) (levels : Nat) (setting : Setting) (alternatives : List Expr) (failures : List Failure)
    (calls : List Call) (a : Attempt) : Prop where
  all : calls.map Call.expr = alternatives
  declined : ∀ call ∈ calls, (call.outcome job levels).Declined
  kept : ∃ tried : Tried, tried.Recalls (failures ++ job.failures levels calls) ∧
    a = tried.exhausted (setting.rest job.input) setting.location

theorem Exhaustion.nil (h : tried.Recalls failures) :
    Exhaustion job levels setting [] failures [] (tried.exhausted (setting.rest job.input) setting.location) :=
  ⟨rfl, nofun, tried, by simpa [Job.failures] using h, rfl⟩

theorem Exhaustion.cons (hcall : (call.outcome job levels).Declined)
    (h : Exhaustion job levels setting alternatives (failures ++ (call.outcome job levels).failure?.toList) calls a) :
    Exhaustion job levels setting (call.expr :: alternatives) failures (call :: calls) a where
  all := by rw [List.map_cons, h.all]
  declined := List.forall_mem_cons.2 ⟨hcall, h.declined⟩
  kept := by rw [Job.failures_cons, ← List.append_assoc]; exact h.kept

/-- What is reported of alternatives some of which failed. -/
theorem Exhaustion.reports (h : Exhaustion job levels setting alternatives [] calls a)
    (hsome : job.failures levels calls ≠ []) :
    ∃ g, Furthest (job.failures levels calls) g ∧ a = .settled (.failed (.exhausted (setting.rest job.input) g)) := by
  obtain ⟨⟨furthest, recursion⟩, hrecalls, rfl⟩ := h.kept
  cases furthest with
  | none => exact absurd hrecalls hsome
  | some g => exact ⟨g, hrecalls, rfl⟩

theorem on_tryChoice_of_failed {failure : Failure} {t : Session}
    (h : (applyWithin job levels e setting).on s = (.settled (.failed failure), t)) :
    (tryChoice job (applyWithin job levels) setting (e :: alternatives) tried).on s =
      (tryChoice job (applyWithin job levels) setting alternatives (tried.failed failure)).on
        (t.backtracked job failure setting.location) := by
  rw [tryChoice, Eval.on_bind, h]
  simp only [Eval.on_bind, Eval.on_emit, Eval.on_count, Session.backtracked]
  split <;> split <;> rfl

theorem on_tryChoice_of_recursion {suspension : Option Suspension} {t : Session}
    (h : (applyWithin job levels e setting).on s = (.recursion suspension, t)) :
    (tryChoice job (applyWithin job levels) setting (e :: alternatives) tried).on s =
      (tryChoice job (applyWithin job levels) setting alternatives { tried with recursion := some suspension }).on t := by
  rw [tryChoice, Eval.on_bind, h]

/-- An alternative that something comes of decides the choice. -/
theorem on_tryChoice_of_not_declined (h : ¬ ((applyWithin job levels e setting).on s).1.Declined) :
    ¬ ((tryChoice job (applyWithin job levels) setting (e :: alternatives) tried).on s).1.Declined := by
  rw [tryChoice, Eval.on_bind]
  generalize (applyWithin job levels e setting).on s = next at h ⊢
  obtain ⟨a, t⟩ := next
  rcases a with (tree | why | span | failure) | suspension | error
  · dsimp only
    split
    · exact plantSeed_not_declined
    · exact id
  · exact id
  · exact id
  · exact absurd trivial h
  · exact absurd trivial h
  · exact id

/-- A choice that nothing comes of has tried all its alternatives in vain. -/
theorem exhaustion_tryChoice (htried : tried.Recalls failures)
    (h : ((tryChoice job (applyWithin job levels) setting alternatives tried).on s).1.Declined) :
    Exhaustion job levels setting alternatives failures (job.trials levels setting alternatives s)
      ((tryChoice job (applyWithin job levels) setting alternatives tried).on s).1 := by
  induction alternatives generalizing tried failures s with
  | nil => exact .nil htried
  | cons e others ih =>
    cases hon : (applyWithin job levels e setting).on s with
    | mk a t =>
    have houtcome : (⟨e, setting, s⟩ : Call).outcome job levels = a := congrArg Prod.fst hon
    have hdeclined : a.Declined := by
      by_contra hnot
      exact on_tryChoice_of_not_declined (by rwa [hon]) h
    rw [Job.trials, hon]
    rcases a with (_ | _ | _ | failure) | suspension | _
    case settled.failed =>
      rw [on_tryChoice_of_failed hon] at h ⊢
      refine .cons (houtcome ▸ hdeclined) (ih ?_ h)
      rw [houtcome]
      exact htried.failed failure
    case recursion =>
      rw [on_tryChoice_of_recursion hon] at h ⊢
      refine .cons (houtcome ▸ hdeclined) (ih ?_ h)
      rw [houtcome, show (Attempt.recursion suspension).failure?.toList = [] from rfl, List.append_nil]
      exact htried
    all_goals exact hdeclined.elim

end

/-! ## Choices within choices -/

/-- The alternatives that are tried where a choice among them is worked out. -/
def Call.alternatives (call : Call) (job : Job) (levels : Nat) (alternatives : List Expr) : List Call :=
  job.trials levels call.setting alternatives (call.within job)

/-- The failure is reported by one of the calls, or by an alternative of a choice that was worked out for one. -/
inductive Told (job : Job) : (levels : Nat) → List Call → Failure → Prop
  | own {levels : Nat} {calls : List Call} {call : Call} {f : Failure} : call ∈ calls →
    (call.outcome job levels).failure? = some f → Told job levels calls f
  | nested {levels levels' : Nat} {calls : List Call} {call worked : Call} {alternatives : List Expr} {f : Failure} :
    call ∈ calls → call.Repeats job levels (levels' + 1) worked → worked.expr = .choice alternatives →
    Told job levels' (worked.alternatives job levels' alternatives) f → Told job levels calls f

section

variable {job : Job} {levels : Nat} {alternatives : List Expr} {call : Call} {calls : List Call} {f : Failure}

/-- What comes of a choice that is worked out is what comes of its alternatives. -/
theorem Call.outcome_choice (he : call.expr = .choice alternatives) (hfresh : call.Fresh job) :
    call.outcome job (levels + 1) =
      ((tryChoice job (applyWithin job levels) call.setting alternatives .nothing).on (call.within job)).1.awaiting job
        (.of call.expr call.setting) := by
  have hn : call.session.reenters call.expr call.setting.location = false := by rw [he]; rfl
  have hw : (evaluate job (applyWithin job levels) call.expr call.setting).on (call.within job) =
      (tryChoice job (applyWithin job levels) call.setting alternatives .nothing).on (call.within job) := by rw [he]; rfl
  rw [outcome, applyWithin, on_remembering hfresh hn hw]
  rfl

theorem Call.exhaustion (he : call.expr = .choice alternatives) (hfresh : call.Fresh job)
    (h : (call.outcome job (levels + 1)).Declined) : ∃ a, (call.outcome job (levels + 1)).failure? = a.failure? ∧
      Exhaustion job levels call.setting alternatives [] (call.alternatives job levels alternatives) a := by
  rw [outcome_choice he hfresh] at h ⊢
  exact ⟨_, Attempt.failure?_awaiting, exhaustion_tryChoice Tried.nothing_recalls (Attempt.awaiting_declined.1 h)⟩

/-- Of calls that all came to nothing, some failed at least as far on as any failure told among them. -/
theorem Told.exists_le (htold : Told job levels calls f) (h : ∀ call ∈ calls, (call.outcome job levels).Declined) :
    ∃ g ∈ job.failures levels calls, f.stop ≤ g.stop := by
  induction htold with
  | own hcall hf => exact ⟨_, Job.mem_failures hcall hf, Location.le_refl _⟩
  | nested hcall hrepeats he _ ih =>
    obtain ⟨a, hsame, hex⟩ := Call.exhaustion he hrepeats.fresh (hrepeats.outcome ▸ h _ hcall)
    rw [hrepeats.outcome] at hsame
    obtain ⟨g, hg, hle⟩ := ih hex.declined
    obtain ⟨furthest, hfurthest, rfl⟩ := hex.reports (List.ne_nil_of_mem hg)
    exact ⟨_, Job.mem_failures hcall hsame, Location.le_trans hle (hfurthest.le hg)⟩

/-- What a choice reports of its alternatives. -/
structure ReportsFurthest (job : Job) (levels : Nat) (call : Call) (alternatives : List Expr) (failure : Failure) : Prop where
  /-- All alternatives were tried. -/
  all : (call.alternatives job levels alternatives).map Call.expr = alternatives
  declined : ∀ inner ∈ call.alternatives job levels alternatives, (inner.outcome job levels).Declined
  kind : failure.kind = .exhausted
  /-- It quotes the last one of the alternatives that got furthest. -/
  quotes : ∃ g, Furthest (job.failures levels (call.alternatives job levels alternatives)) g ∧ failure.stop = g.stop ∧
    failure.message = "no valid alternatives while parsing " ++ quoteStart (call.setting.rest job.input) ++
      " (" ++ g.message ++ ")"
  /-- It stops at the furthest place where any alternative of the choices within it failed. -/
  reaches : ∀ g, Told job levels (call.alternatives job levels alternatives) g → g.stop ≤ failure.stop
  attained : ∃ g, Told job levels (call.alternatives job levels alternatives) g ∧ g.stop = failure.stop

/-- A choice that is worked out and fails, though not for want of alternatives that do, reports the furthest failure. -/
theorem Call.reportsFurthest (he : call.expr = .choice alternatives) (hfresh : call.Fresh job)
    (hf : (call.outcome job (levels + 1)).failure? = some f)
    (hsome : job.failures levels (call.alternatives job levels alternatives) ≠ []) :
    ReportsFurthest job levels call alternatives f := by
  obtain ⟨a, hsame, hex⟩ := exhaustion he hfresh (Attempt.declined_of_failure? hf)
  obtain ⟨g, hg, rfl⟩ := hex.reports hsome
  obtain rfl : f = .exhausted (call.setting.rest job.input) g := by
    rw [hf] at hsame
    exact Option.some.inj hsame
  refine ⟨hex.all, hex.declined, rfl, ⟨g, hg, rfl, rfl⟩, fun told htold => ?_, g, ?_, rfl⟩
  · obtain ⟨g', hg', hle⟩ := htold.exists_le hex.declined
    exact Location.le_trans hle (hg.le hg')
  · obtain ⟨inner, hinner, hfailure⟩ := List.mem_filterMap.1 hg.mem
    exact .own hinner hfailure

/-- What asks the same as a choice does is a choice. -/
theorem Call.choice_of_same {worked : Call} (he : call.expr = .choice alternatives)
    (hsame : (call.question == worked.question) = true) : ∃ others, worked.expr = .choice others := by
  have hcontent : call.expr.content = worked.expr.content := congrArg Question.expr (Question.beq_iff.1 hsame)
  rw [he] at hcontent
  cases hw : worked.expr with
  | choice others => exact ⟨others, rfl⟩
  | _ =>
    rw [hw] at hcontent
    simp [Expr.content] at hcontent

/-- The call made once more, in the session that it leaves behind. -/
def Call.again (call : Call) (job : Job) (levels : Nat) : Call :=
  { call with session := ((applyWithin job levels call.expr call.setting).on call.session).2 }

theorem Job.Applies.earned_again {root : Expr} (h : job.Applies root levels call) :
    job.Earned root (call.again job levels).session.memory := (applyWithin_earns levels call h h.earned).2

/-- In the course of a parse, a choice that fails reports the furthest failure of its alternatives where it is worked out. If
its failure is remembered, it was worked out elsewhere in the parse and reported that, unless it had come back to the rule
around it there: then the failure is that of the work that was set aside. -/
theorem choice_reports_furthest (job : Job) (root : Expr) :
    (∀ {levels call}, job.Applies root levels call → job.Earned root call.session.memory) ∧
      ∀ {levels call alternatives f}, job.Earned root call.session.memory → call.expr = .choice alternatives →
        (call.outcome job (levels + 1)).failure? = some f →
        (call.Fresh job → job.failures levels (call.alternatives job levels alternatives) ≠ [] →
          ReportsFurthest job levels call alternatives f) ∧
        (¬ call.Fresh job → (∃ q, (call.question == q) = true ∧ job.SetAside root q) ∨
          ∃ levels' worked others, job.Applies root (levels' + 1) worked ∧
            call.Repeats job (levels + 1) (levels' + 1) worked ∧ worked.expr = .choice others ∧
            (job.failures levels' (worked.alternatives job levels' others) ≠ [] →
              ReportsFurthest job levels' worked others f)) := by
  refine ⟨Job.Applies.earned, fun {levels call alternatives f} hearned he hf =>
    ⟨fun hfresh => call.reportsFurthest he hfresh hf, fun hnot => ?_⟩⟩
  refine (hearned.repeats hnot levels).imp_right fun ⟨levels', worked, hworked, hrepeats⟩ => ?_
  obtain ⟨others, hothers⟩ := Call.choice_of_same he hrepeats.same
  exact ⟨levels', worked, others, hworked, hrepeats, hothers,
    worked.reportsFurthest hothers hrepeats.fresh (hrepeats.outcome ▸ hf)⟩

end

namespace Grammar

/-- Words that begin alike, two of them behind the rule itself in a choice of their own. -/
def rivals : List Expr :=
  [.choice [.rule "s", .literal "aab".toList, .literal ['b']], .literal "aac".toList, .rule "s", .literal ['c']]

/-- The rule that is a choice among the rivals. -/
def ofRivals : Grammar where
  start := "s"
  rules := [("s", .choice rivals)]
  skipper := none
  overrides := []
  productions := []
  kinds := .empty

/-- Three of the rivals get equally far: the inner choice, the one behind it and then the rule, where they are tried again.
Tried again itself, the choice fails as is remembered. -/
theorem choice_reports_furthest_rivals :
    let job := Job.new ofRivals (.choice rivals) ⟨true, 8, true, false⟩ .nothing "aad".toList
    let call : Call := ⟨.choice rivals, .start, .start⟩
    let again : Call := call.again job 8
    let failure : Failure :=
      ⟨.exhausted "aad".toList (.exhausted "aad".toList (.wrongCharacter 'd' 'c' "aac".toList)), ⟨0, 2⟩⟩
    (job.Earned (.choice rivals) call.session.memory ∧ call.Fresh job ∧ (call.outcome job 8).failure? = some failure ∧
      job.failures 7 (call.alternatives job 7 rivals) ≠ [] ∧ ReportsFurthest job 7 call rivals failure) ∧
      job.Earned (.choice rivals) again.session.memory ∧ ¬ again.Fresh job ∧
        (again.outcome job 8).failure? = some failure ∧
        ((∃ q, (again.question == q) = true ∧ job.SetAside (.choice rivals) q) ∨
          ∃ levels' worked others, job.Applies (.choice rivals) (levels' + 1) worked ∧
            again.Repeats job 8 (levels' + 1) worked ∧ worked.expr = .choice others ∧
            (job.failures levels' (worked.alternatives job levels' others) ≠ [] →
              ReportsFurthest job levels' worked others failure)) := by
  intro job call again failure
  have happlies : job.Applies (.choice rivals) 8 call := .root
  have hfresh : call.Fresh job := fun _ => rfl
  have hf : (call.outcome job 8).failure? = some failure := by decide +kernel
  have hsome : job.failures 7 (call.alternatives job 7 rivals) ≠ [] := by decide +kernel
  have hagain : job.Earned (.choice rivals) again.session.memory := happlies.earned_again
  have hnot : ¬ again.Fresh job := fun h => absurd (h rfl) (by decide +kernel)
  have hf' : (again.outcome job 8).failure? = some failure := by decide +kernel
  have hreports := (choice_reports_furthest job (.choice rivals)).2 .empty (rfl : call.expr = .choice rivals) hf
  have hrepeats := (choice_reports_furthest job (.choice rivals)).2 hagain (rfl : again.expr = .choice rivals) hf'
  exact ⟨⟨.empty, hfresh, hf, hsome, hreports.1 hfresh hsome⟩, hagain, hnot, hf', hrepeats.2 hnot⟩

/-- The rule `s` as a choice between its growths by either of two letters and a letter to begin with. The rule `t` looks ahead
for it and tries the growths again. -/
def growthsAgain : List Definition := [
  .rule "s" (.choice [.choice [.sequence [.rule "s", .literal ['x']], .sequence [.rule "s", .literal ['y']]],
    .literal ['a']]),
  .rule "t" (.sequence [.notAhead (.sequence [.rule "s", .literal ['q']]),
    .choice [.sequence [.rule "s", .literal ['x']], .sequence [.rule "s", .literal ['y']]]]),
  .start "t"]

/-- The call is of a choice with alternatives that fail, and fails otherwise than by reporting one of them. -/
def unwrapped (job : Job) : Nat → Call → Bool
  | levels + 1, ⟨.choice alternatives, setting, s⟩ =>
    let call : Call := ⟨.choice alternatives, setting, s⟩
    !(job.failures levels (call.alternatives job levels alternatives)).isEmpty &&
      (call.outcome job (levels + 1)).failure?.any (·.kind != .exhausted)
  | _, _ => false

/-- Within `s` the choice among the growths came back to `s`, and what is remembered of it is the failure of the second growth
that went on in its place. Tried again behind `s`, where its alternatives fail, it does not report them as a choice that is
worked out does. -/
theorem choice_reports_unwrapped : ∃ g, ofDefinitions growthsAgain = .ok g ∧
    ∃ job, job = Job.new g (.rule g.start) .standard .nothing ['a', 'b'] ∧
      ∃ levels call alternatives f, job.Applies (.rule g.start) (levels + 1) call ∧ call.expr = .choice alternatives ∧
        job.failures levels (call.alternatives job levels alternatives) ≠ [] ∧
          (call.outcome job (levels + 1)).failure? = some f ∧ f.kind ≠ .exhausted := by
  refine ⟨_, rfl, _, rfl, ?_⟩
  generalize hjob : Job.new _ _ _ _ _ = job
  obtain ⟨levels, call, happlies, hunwrapped⟩ := job.exists_applies (.rule "t") (unwrapped job)
    fun heq => absurd (congrArg Attempt.failure? heq) (by subst hjob; decide +kernel)
  unfold unwrapped at hunwrapped
  split at hunwrapped
  · next levels alternatives setting s =>
    rw [Bool.and_eq_true] at hunwrapped
    obtain ⟨f, hf, hkind⟩ := (Option.any_eq_true _ _).1 hunwrapped.2
    exact ⟨levels, _, alternatives, f, happlies, rfl, by simpa using hunwrapped.1, hf, by simpa using hkind⟩
  · cases hunwrapped

end Grammar

end Packrat

/-
Which rule a recursion signal is of. A rule signals where it is entered last and is come back to at the
same place, and its signal passes through rules, parts and exhausted choices like any other. Whoever
gets the signal is not told of which rule it is, but the rule was reported when it signalled.
-/
import Packrat.Parse.Matcher
import Packrat.Proofs.Parse.Turns
import Packrat.Proofs.Recursion.Escape
import Packrat.Proofs.Recursion.Iteration
import Packrat.Proofs.Session.Calls
import Packrat.Proofs.Session.Passage

namespace Packrat

/-- Trying the expression can signal that the rule came back to itself, where the given rule may have been
entered at the same place. -/
inductive Signals (g : Grammar) : Option String → Expr → String → Prop
  | itself {r : String} : Signals g (some r) (.rule r) r
  | rule {m : Option String} {name r : String} {body : Expr} : g.rule? name = some body →
    Signals g (some name) body r → Signals g m (.rule name) r
  | choice {m : Option String} {alternatives : List Expr} {e : Expr} {r : String} :
    (∀ e ∈ alternatives, Returns g m e) → e ∈ alternatives → Signals g m e r → Signals g m (.choice alternatives) r
  | part {m : Option String} {e part : Expr} {r : String} : (∀ alternatives, e ≠ .choice alternatives) →
    part ∈ e.parts → Signals g m part r → Signals g m e r

theorem Signals.returns {g : Grammar} {m : Option String} {e : Expr} {r : String} (h : Signals g m e r) :
    Returns g m e := by
  induction h with
  | itself => exact .itself
  | rule hb _ ih => exact .rule hb ih
  | choice hall he => exact .choice (List.ne_nil_of_mem he) hall
  | part hc hp _ ih => exact .part hc hp ih

/-- Only rules that refer to themselves can signal, and the one that was entered before. -/
theorem Signals.references {g : Grammar} {m : Option String} {e : Expr} {r : String} (h : Signals g m e r) :
    (m = some r ∧ r ∈ e.references) ∨ ∃ body, g.rule? r = some body ∧ r ∈ body.references := by
  induction h with
  | itself => exact .inl ⟨rfl, List.mem_singleton_self _⟩
  | @rule m name r body hb _ ih =>
    rcases ih with ⟨hname, hr⟩ | ih
    · cases hname
      exact .inr ⟨body, hb, hr⟩
    · exact .inr ih
  | choice _ he _ ih => exact ih.imp_left fun ⟨hm, hr⟩ => ⟨hm, Expr.references_part he hr⟩
  | part _ hp _ ih => exact ih.imp_left fun ⟨hm, hr⟩ => ⟨hm, Expr.references_part hp hr⟩

/-- Where no rule but the start rule refers to itself, no other one signals in it. -/
theorem Signals.eq_start_of_check {g : Grammar}
    (hg : g.rules.all (fun (name, body) => name == g.start || !body.references.contains name) = true) {r : String}
    (h : Signals g none (.rule g.start) r) : r = g.start := by
  rcases h.references with ⟨hm, -⟩ | ⟨body, hb, hr⟩
  · cases hm
  · have hchecked := List.all_eq_true.1 hg _ (Grammar.mem_of_lookup hb)
    simpa [hr] using hchecked

/-! ## What stays reported -/

namespace Session

/-- The rule entered last, wherever it was entered. -/
def mark (s : Session) : Option String := s.entered.map Prod.fst

/-- The same rule is entered last, and what was reported stays so. -/
structure Retains (s t : Session) : Prop where
  entered : t.entered = s.entered
  events : ∀ event ∈ s.events, event ∈ t.events

/-- A rule with `P` was reported to have come back to itself. -/
def Blames (s : Session) (P : String → Prop) : Prop := ∃ r l, P r ∧ Event.reentry r l ∈ s.events

variable {s t u : Session} {P Q : String → Prop}

namespace Retains

theorem refl : s.Retains s := ⟨rfl, fun _ h => h⟩

theorem trans (h : s.Retains t) (h' : t.Retains u) : s.Retains u :=
  ⟨h'.entered.trans h.entered, fun event he => h'.events event (h.events event he)⟩

theorem mark (h : s.Retains t) : t.mark = s.mark := congrArg (Option.map Prod.fst) h.entered

theorem journal {notes : Array Note} : s.Retains { s with journal := notes } := ⟨rfl, fun _ h => h⟩

theorem count {job : Job} {update : Counts → Counts} (h : s.Retains t) : s.Retains ((Eval.count job update).on t).2 := by
  rw [Eval.on_count]
  split <;> exact ⟨h.entered, h.events⟩

theorem emit {job : Job} {event : Event} (h : s.Retains t) : s.Retains ((Eval.emit job event).on t).2 := by
  rw [Eval.on_emit]
  split
  · exact ⟨h.entered, fun other ho => Array.mem_push_of_mem _ (h.events other ho)⟩
  · exact h

end Retains

theorem Blames.later (h : s.Blames P) (ht : s.Retains t) : t.Blames P := by
  obtain ⟨r, l, hr, he⟩ := h
  exact ⟨r, l, hr, ht.events _ he⟩

theorem Blames.imp (h : s.Blames P) (f : ∀ r, P r → Q r) : s.Blames Q := by
  obtain ⟨r, l, hr, he⟩ := h
  exact ⟨r, l, f r hr, he⟩

end Session

theorem Job.retains (job : Job) : Passage job Session.Retains where
  refl _ := .refl
  trans := .trans
  answered _ := by
    rw [Eval.on_bind]
    exact .emit (.count .refl)
  missed _ := .count .refl
  recorded _ := ⟨rfl, fun _ h => h⟩
  reentered _ := by
    simp only [Eval.reportReentry, Eval.on_bind]
    exact .emit (.count .journal)
  failed _ := by
    rw [Eval.on_bind]
    exact .count (.emit .refl)
  resumed _ := by
    simp only [Eval.on_bind]
    exact .count (.emit .journal)
  grown _ := by
    rw [Eval.on_bind]
    exact .trans (.count .refl) .journal
  nested {rule location work} hwork s := by
    let inside : Session := { s with depth := s.depth + 1, entered := (rule.map (·, location)).or s.entered }
    let begun := ((Eval.count job fun c => { c with deepest := max c.deepest (s.depth + 1) }).on inside).2
    have hworked : inside.Retains (work.on begun).2 := .trans (.count .refl) (hwork begun)
    refine ⟨?_, hworked.events⟩
    -- the mark inside is the one outside unless it is taken from there
    show (if rule.isSome then s.entered else (work.on begun).2.entered) = s.entered
    cases rule with
    | some _ => rfl
    | none => exact hworked.entered
  entered hwork _ := by
    simp only [Eval.on_bind, Eval.on_pure]
    exact .emit (.trans (.count (.emit .refl)) (hwork _))

/-! ## What is reported of a signal -/

/-- If an expression that was tried under a mark gave a recursion signal, then a rule that it can signal was
reported. -/
def Job.Accounts (job : Job) (mark : Option String) (e : Expr) (r : Attempt × Session) : Prop :=
  ∀ suspension, r.1 = .recursion suspension → r.2.Blames (Signals job.grammar mark e)

/-- The same for what ends a sequence or a repetition early. -/
def Job.AccountsEarly {α : Type} (job : Job) (mark : Option String) (e : Expr) (r : Except Attempt α × Session) : Prop :=
  ∀ a, r.1 = .error a → job.Accounts mark e (a, r.2)

/-- All recursion signals are accounted for. -/
def Job.AccountedBy (job : Job) (apply : Applier) : Prop :=
  ∀ e setting s, job.Accounts s.mark e ((apply e setting).on s)

section

variable {job : Job} {apply : Applier} {s : Session} {e : Expr}

/-- A signal of a part of anything but a choice is one of the whole. -/
theorem Job.Accounts.part {mark : Option String} {part : Expr} {t : Session} {suspension : Option Suspension}
    (h : job.Accounts mark part (.recursion suspension, t)) (hc : ∀ alternatives, e ≠ .choice alternatives)
    (hp : part ∈ e.parts) : t.Blames (Signals job.grammar mark e) :=
  (h suspension rfl).imp fun _ hr => .part hc hp hr

/-- What comes back to itself is the rule entered last, and it is reported. -/
theorem Session.blames_of_reenters (htracing : job.options.tracing = true) {l place : Location} (hre : s.reenters e l = true) :
    ((Eval.reportReentry job (e.reference?.getD "") place).on s).2.Blames (Signals job.grammar s.mark e) := by
  cases e with
  | rule r =>
    have hentered : s.entered = some (r, l) := by simpa [Session.reenters] using hre
    refine ⟨r, place, ?_, ?_⟩
    · rw [Session.mark, hentered]
      exact .itself
    · simp [Eval.reportReentry, Eval.on_bind, Eval.on_count, Eval.on_emit, htracing, Expr.reference?]
  | _ => cases hre

/-- A run signals what its current part does. -/
theorem Run.absorb_signals {run : Run} {a : Attempt} {suspension : Option Suspension}
    (h : ((run.absorb job apply a).on s).1 = .error (.recursion suspension)) :
    ∃ inner, a = .recursion inner ∧ ((run.absorb job apply a).on s).2 = s := by
  unfold Run.absorb at h ⊢
  split
  case h_4 =>
    rw [Eval.on_bind] at h
    split at h <;> cases h
  case h_5 => exact ⟨_, rfl, rfl⟩
  case h_6 => exact ⟨_, rfl, rfl⟩
  all_goals cases h

/-- A rule passes a signal of its body on. -/
theorem wrapAttempt_eq_recursion {name : String} {a : Attempt} {suspension : Option Suspension}
    (h : wrapAttempt job name a = .recursion suspension) : ∃ inner, a = .recursion inner := by
  unfold wrapAttempt at h
  split at h
  · split at h <;> cases h
  · exact ⟨_, rfl⟩
  · exact ⟨_, h⟩

/-- Work that was set aside is given a result for good. -/
theorem plantSeed_settles {work : Suspension} {seed : Tree} {suspension : Option Suspension} :
    ((plantSeed job apply work seed).on s).1 ≠ .recursion suspension := by
  unfold plantSeed
  simp only [Eval.on_bind]
  split
  · nofun
  · nofun
  · next hne => exact hne _

variable (htracing : job.options.tracing = true) (h : job.AccountedBy apply)
  (hr : ∀ e setting, Eval.Leads Session.Retains (apply e setting))
include htracing h hr

/-! ### Sequences -/

theorem Run.drive_accounts (hc : ∀ alternatives, e ≠ .choice alternatives) : ∀ (fuel : Nat) (run : Run) (s : Session),
    run.parts = e.parts → job.AccountsEarly s.mark e ((run.drive job apply fuel).on s)
  | 0, _, _, _ => by
    rintro _ ⟨⟩ _ ⟨⟩
  | fuel + 1, run, s, hparts => by
    unfold Run.drive
    split
    · rintro _ ⟨⟩
    · next part hp =>
      have hmem : part ∈ e.parts := hparts ▸ List.mem_of_getElem? hp
      rw [Eval.on_bind, Eval.on_get]
      split
      · next hre =>
        intro _ _ _ _
        exact (Session.blames_of_reenters htracing hre.2).imp fun _ => .part hc hmem
      · rw [Eval.on_bind, Eval.on_bind]
        have hretains := hr part run.here s
        have haccounts := h part run.here s
        generalize (apply part run.here).on s = r at hretains haccounts ⊢
        obtain ⟨a, t⟩ := r
        have hgoes : run.Goes ((run.absorb job apply a).on t).1 := run.absorb_goes a t
        have hleads : Eval.Leads Session.Retains (run.absorb job apply a) := job.retains.absorb hr
        split
        · next further habsorbed =>
          rw [habsorbed] at hgoes
          rw [← (hretains.trans (hleads t)).mark]
          exact drive_accounts hc fuel further _ (hgoes.parts.trans hparts)
        · next a' habsorbed =>
          rintro _ ⟨⟩ suspension hs
          have hs : a' = .recursion suspension := hs
          subst hs
          obtain ⟨inner, rfl, ht⟩ := absorb_signals habsorbed
          show ((run.absorb job apply (.recursion inner)).on t).2.Blames _
          rw [ht]
          exact haccounts.part hc hmem

theorem trySequence_accounts {parts : List Expr} {flatten : Bool} {setting : Setting}
    (hc : ∀ alternatives, e ≠ .choice alternatives) (he : e.parts = parts) :
    job.Accounts s.mark e ((trySequence job apply parts flatten setting).on s) := by
  unfold trySequence Run.finish
  rw [Eval.on_bind]
  have hdrive := Run.drive_accounts htracing h hr hc ((Run.new parts flatten setting 0).fuel job)
    (.new parts flatten setting 0) s he.symm
  split
  · unfold Run.complete
    split
    · intro suspension hs
      rcases Run.extend_grows _ with ⟨t, ht⟩ | ⟨error, he⟩
      · cases hs.symm.trans ht
      · cases hs.symm.trans he
    · rintro _ ⟨⟩
  · next a ha => exact hdrive a ha

/-! ### Repetitions and choices -/

omit htracing in
theorem Rounds.drive_accounts {body : Expr} {bounds : Bounds} {fallback : Option Tree} {setting : Setting} :
    ∀ (fuel : Nat) (rounds : Rounds) (s : Session), job.AccountsEarly s.mark (.repetition body bounds fallback)
      ((rounds.drive job apply body bounds setting fuel).on s)
  | 0, _, _ => by
    rintro _ ⟨⟩
  | fuel + 1, rounds, s => by
    unfold Rounds.drive
    show job.AccountsEarly _ _ ((if _ then _ else _ : Eval (Except Attempt Rounds)).on s)
    split
    · rintro _ ⟨⟩
    · rw [Eval.on_bind]
      have hretains := hr body (setting.moved rounds.collected.cursor) s
      have haccounts := h body (setting.moved rounds.collected.cursor) s
      generalize (apply body (setting.moved rounds.collected.cursor)).on s = r at hretains haccounts ⊢
      obtain ⟨a, t⟩ := r
      rw [← hretains.mark]
      split
      · show job.AccountsEarly _ _ ((if _ then _ else _ : Eval (Except Attempt Rounds)).on t)
        split
        · rintro _ ⟨⟩
        · exact drive_accounts fuel _ t
      · show job.AccountsEarly _ _ ((if _ then _ else _ : Eval (Except Attempt Rounds)).on t)
        split
        · rintro _ ⟨⟩
        · exact drive_accounts fuel _ t
      · rintro _ ⟨⟩
      · rintro _ ⟨⟩ _ ⟨⟩
      · rw [Eval.on_bind]
        have hskipped := (job.retains.skipBetween hr : Eval.Leads _ (skipBetween job apply setting rounds.collected)) t
        rw [← hskipped.mark]
        split
        · exact drive_accounts fuel _ _
        · rintro _ ⟨⟩
        · rintro _ ⟨⟩ _ ⟨⟩
      · next ha =>
        rintro _ ⟨⟩ _ _
        cases ha
        exact hretains.mark ▸ haccounts.part (by rintro _ ⟨⟩) List.mem_cons_self
      · rintro _ ⟨⟩ _ ⟨⟩

omit htracing in
theorem tryRepetition_accounts {body : Expr} {bounds : Bounds} {fallback : Option Tree} {setting : Setting} :
    job.Accounts s.mark (.repetition body bounds fallback)
      ((tryRepetition job apply body bounds fallback setting).on s) := by
  unfold tryRepetition
  rw [Eval.on_bind]
  split
  · rintro _ ⟨⟩
  · next a ha => exact Rounds.drive_accounts h hr _ _ _ a ha

/-- What a choice keeps in mind of the alternatives before: a signal is accounted for, and if none failed
then all gave one. -/
structure Tried.Accounted (job : Job) (before : List Expr) (tried : Tried) (s : Session) : Prop where
  recursion : tried.recursion.isSome = true → ∃ e ∈ before, s.Blames (Signals job.grammar s.mark e)
  returns : tried.furthest = none → ∀ e ∈ before, Returns job.grammar s.mark e

omit htracing in
theorem tryChoice_accounts {setting : Setting} {alternatives : List Expr} : ∀ {others before : List Expr} {tried : Tried}
    (s : Session), alternatives = before ++ others → tried.Accounted job before s →
      job.Accounts s.mark (.choice alternatives) ((tryChoice job apply setting others tried).on s)
  | [], before, tried, s, hall, htried => by
    intro suspension hs
    have hs : tried.exhausted (setting.rest job.input) setting.location = .recursion suspension := hs
    rw [List.append_nil] at hall
    subst hall
    unfold Tried.exhausted at hs
    split at hs
    · cases hs
    · next hfurthest hrecursion =>
      obtain ⟨e, he, hblames⟩ := htried.recursion (by rw [hrecursion]; rfl)
      exact hblames.imp fun _ => .choice (htried.returns hfurthest) he
    · cases hs
  | e :: others, before, tried, s, hall, htried => by
    have hall : alternatives = (before ++ [e]) ++ others := by rw [hall, List.append_assoc]; rfl
    unfold tryChoice
    rw [Eval.on_bind]
    have hretains := hr e setting s
    have haccounts := h e setting s
    generalize (apply e setting).on s = r at hretains haccounts ⊢
    obtain ⟨a, t⟩ := r
    rw [← hretains.mark]
    have hrecursion (htried' : tried.recursion.isSome = true) :
        ∃ e' ∈ before ++ [e], t.Blames (Signals job.grammar t.mark e') := by
      obtain ⟨e', he', hblames⟩ := htried.recursion htried'
      exact ⟨e', List.mem_append_left _ he', hretains.mark ▸ hblames.later hretains⟩
    split
    · split
      · exact fun _ hs => absurd hs plantSeed_settles
      · rintro _ ⟨⟩
    · next failure _ =>
      rw [Eval.on_bind, Eval.on_bind]
      have hfailed := @Passage.failed _ _ job.retains failure.stop setting.location t
      rw [Eval.on_bind] at hfailed
      rw [← hfailed.mark]
      refine tryChoice_accounts _ hall ⟨fun hsome => ?_, fun hnone => ?_⟩
      · have hsome : tried.recursion.isSome = true := by
          unfold Tried.failed at hsome
          split at hsome <;> exact hsome
        obtain ⟨e', he', hblames⟩ := hrecursion hsome
        exact ⟨e', he', hfailed.mark ▸ hblames.later hfailed⟩
      · unfold Tried.failed at hnone
        split at hnone
        · cases hnone
        · next hall =>
          rw [hnone] at hall
          exact absurd rfl hall
    · next suspension ha =>
      cases ha
      have hblames := haccounts suspension rfl
      rw [← hretains.mark] at hblames
      refine tryChoice_accounts _ hall ⟨fun _ => ⟨e, by simp, hblames⟩, fun hnone e' he' => ?_⟩
      rcases List.mem_append.1 he' with he' | he'
      · exact hretains.mark ▸ htried.returns hnone e' he'
      · obtain ⟨r, _, hr, -⟩ := hblames
        exact List.mem_singleton.1 he' ▸ hr.returns
    · next hne => exact fun suspension hs => absurd hs (hne suspension)

/-! ### Expressions -/

omit htracing hr in
theorem tryRule_accounts {mark : Option String} {name : String} {setting : Setting} (hm : s.mark = some name) :
    job.Accounts mark (.rule name) ((tryRule job apply name setting).on s) := by
  unfold tryRule
  split
  · rintro _ ⟨⟩
  · next body hb =>
    simp only [Eval.on_bind, Eval.on_pure]
    have hbegun : s.Retains ((Eval.count job fun c => { c with rules := c.rules + 1 }).on
        ((Eval.emit job (.enter name setting.location)).on s).2).2 := .count (.emit .refl)
    have haccounts := h body ⟨setting.position, some name, job.skippingIn name setting.skipping⟩
      ((Eval.count job fun c => { c with rules := c.rules + 1 }).on
        ((Eval.emit job (.enter name setting.location)).on s).2).2
    rw [hbegun.mark, hm] at haccounts
    intro suspension hs
    obtain ⟨inner, ha⟩ := wrapAttempt_eq_recursion hs
    exact ((haccounts inner ha).imp fun _ => .rule hb).later (.emit .refl)

omit htracing hr in
/-- What looks at what came of its body passes a signal on. -/
theorem looked_accounts {body : Expr} {setting : Setting} {f : Attempt → Attempt}
    (hc : ∀ alternatives, e ≠ .choice alternatives) (hp : body ∈ e.parts)
    (hf : ∀ a suspension, f a = .recursion suspension → ∃ inner, a = .recursion inner) :
    job.Accounts s.mark e ((do return f (← apply body setting) : Eval Attempt).on s) := by
  intro suspension hs
  obtain ⟨inner, ha⟩ := hf _ _ hs
  exact (h body setting s inner ha).imp fun _ => .part hc hp

/-- The body of a rule is tried under its mark, anything else under the one around it. -/
theorem evaluate_accounts {mark : Option String} {setting : Setting} (hm : s.mark = e.reference?.or mark) :
    job.Accounts mark e ((evaluate job apply e setting).on s) := by
  cases e with
  | rule name => exact tryRule_accounts h hm
  | literal | pattern | external => rintro _ ⟨⟩
  | sequence parts | merge parts =>
    subst hm
    exact trySequence_accounts htracing h hr nofun rfl
  | choice alternatives =>
    subst hm
    have hnothing : Tried.nothing.Accounted job [] s := ⟨nofun, nofun⟩
    exact tryChoice_accounts h hr s (List.nil_append _).symm hnothing
  | repetition body bounds fallback =>
    subst hm
    exact tryRepetition_accounts h hr
  | ahead body =>
    subst hm
    refine looked_accounts h nofun List.mem_cons_self fun a suspension ha => ?_
    unfold aheadAttempt at ha
    split at ha
    · split at ha <;> cases ha
    · exact ⟨_, rfl⟩
    · cases ha
  | notAhead body =>
    subst hm
    refine looked_accounts h nofun List.mem_cons_self fun a suspension ha => ?_
    unfold notAheadAttempt at ha
    split at ha
    · split at ha <;> cases ha
    · exact ⟨_, rfl⟩
    · cases ha
  | omission body =>
    subst hm
    refine looked_accounts h nofun List.mem_cons_self fun a suspension ha => ?_
    unfold omissionAttempt at ha
    split at ha
    · cases ha
    · cases ha
    · exact ⟨_, rfl⟩
    · exact ⟨_, ha⟩

omit htracing h hr in
theorem Session.mark_deeper {rule : Option String} {location : Location} : (s.deeper job rule location).mark = rule.or s.mark := by
  cases rule <;> rfl

omit h hr

include htracing in
/-- Every recursion signal is of a rule that was reported. -/
theorem applyWithin_accounts : ∀ levels : Nat, job.AccountedBy (applyWithin job levels)
  | 0, _, _, _ => by rintro _ ⟨⟩
  | levels + 1, e, setting, s => by
    show job.Accounts s.mark e ((remembering job (evaluate job (applyWithin job levels)) e setting).on s)
    unfold remembering
    rw [Eval.on_bind]
    have hlooked := (job.retains.lookUp : Eval.Leads _ (Eval.lookUp job (.of e setting))) s
    rw [← hlooked.mark]
    generalize ((Eval.lookUp job (.of e setting)).on s).2 = t
    split
    · rintro _ ⟨⟩
    · rw [Eval.on_bind, Eval.on_get]
      split
      · next hre => exact fun _ _ => Session.blames_of_reenters htracing hre
      · rw [Eval.on_bind, on_nested, on_remember]
        intro suspension hs
        have hmark : (t.deeper job e.reference? setting.location).mark = e.reference?.or t.mark := Session.mark_deeper
        have haccounts : job.Accounts t.mark e ((evaluate job (applyWithin job levels) e setting).on _) :=
          evaluate_accounts htracing (applyWithin_accounts levels)
            (fun e setting => job.retains.applyWithin levels e setting) hmark
        cases ha : ((evaluate job (applyWithin job levels) e setting).on (t.deeper job e.reference? setting.location)).1 with
        | recursion inner => exact haccounts inner ha
        | settled | broken =>
          simp only [ha] at hs
          cases hs

end

/-! ## The rule that a parse names -/

/-- The rule that is named for want of a base case. -/
def Answer.named? (answer : Answer) : Option String :=
  match answer.result with
  | .error (.noBaseCase rule) => some rule
  | _ => none

theorem Answer.named?_eq_some {answer : Answer} {rule : String} (h : answer.named? = some rule) :
    answer.result = .error (.noBaseCase rule) := by
  unfold named? at h
  split at h
  · next hresult => rw [hresult, Option.some.inj h]
  · cases h

/-- The rule that an event reports to have come back to itself. -/
def Event.reentered? : Event → Option String
  | .reentry rule _ => some rule
  | _ => none

namespace Grammar

variable {g : Grammar} {options : Options} {externals : Externals} {input : List Char} {rule : String}

/-- A parse that ends for want of a base case names the start rule, and a rule that can signal in it was
reported to have come back to itself. -/
theorem parse_blames (h : (g.parse { options with tracing := true } externals input).result = .error (.noBaseCase rule)) :
    rule = g.start ∧ ∃ r l, Signals g none (.rule g.start) r ∧
      Event.reentry r l ∈ (g.parse { options with tracing := true } externals input).events := by
  let job := Job.new g (.rule g.start) { options with tracing := true } externals input
  have haccounts := @applyWithin_accounts job rfl job.options.depthLimit (.rule g.start) .start .start
  have hresult : Job.resultOf (.rule g.start) ((apply job (.rule g.start) .start).on .start).1 = .error (.noBaseCase rule) := h
  cases ha : ((apply job (.rule g.start) .start).on .start).1 with
  | settled v =>
    rw [ha] at hresult
    cases v <;> cases hresult
  | broken error =>
    rw [ha] at hresult
    cases hresult
  | recursion suspension =>
    rw [ha] at hresult
    cases hresult
    obtain ⟨r, l, hr, he⟩ := haccounts suspension ha
    exact ⟨rfl, r, l, hr, Array.mem_toList_iff.2 he⟩

/-- Where only the start rule can signal in itself, a parse that ends for want of a base case names a rule
that was reported to have come back to itself. -/
theorem parse_names_culprit (hg : ∀ r, Signals g none (.rule g.start) r → r = g.start)
    (h : (g.parse { options with tracing := true } externals input).result = .error (.noBaseCase rule)) :
    ∃ l, Event.reentry rule l ∈ (g.parse { options with tracing := true } externals input).events := by
  obtain ⟨rfl, r, l, hr, he⟩ := parse_blames h
  exact ⟨l, hg r hr ▸ he⟩

/-- Sums and differences, without a term to begin with. -/
def ofBaselessSums : Grammar where
  start := "sum"
  rules := [
    ("sum", .choice [.sequence [.rule "sum", .literal ['+'], .rule "term"],
      .sequence [.rule "sum", .literal ['-'], .rule "term"]]),
    ("term", .choice [.literal ['x'], .sequence [.literal ['('], .rule "sum", .literal [')']]])]
  skipper := some (.literal [' '])
  overrides := []
  productions := []
  kinds := .empty

theorem parse_names_culprit_baselessSums :
    let answer := ofBaselessSums.parse { Options.standard with tracing := true } .nothing "x + x".toList
    answer.result = .error (.noBaseCase "sum") ∧ ∃ l, Event.reentry "sum" l ∈ answer.events := by
  have h : (ofBaselessSums.parse { Options.standard with tracing := true } .nothing
      "x + x".toList).result = .error (.noBaseCase "sum") := Answer.named?_eq_some (by decide +kernel)
  exact ⟨h, parse_names_culprit (fun r hr => hr.eq_start_of_check (by decide +kernel)) h⟩

/-- A rule that begins with another one, which begins with itself and has nothing else to begin with. -/
def ofOpenGroups : Grammar where
  start := "group"
  rules := [("group", .sequence [.literal ['('], .rule "rest"]), ("rest", .sequence [.rule "rest", .literal [')']])]
  skipper := none
  overrides := []
  productions := []
  kinds := .empty

/-- The rule that a parse names may never have come back to itself: it is the start rule, whichever rule
signalled. -/
theorem parse_names_bystander :
    let answer := ofOpenGroups.parse { Options.standard with tracing := true } .nothing ['(']
    answer.result = .error (.noBaseCase "group") ∧ (∀ l, Event.reentry "group" l ∉ answer.events) ∧
      Event.reentry "rest" ⟨0, 1⟩ ∈ answer.events := by
  refine ⟨Answer.named?_eq_some (by decide +kernel), fun l hl => ?_, by decide +kernel⟩
  have hevents : ∀ event ∈ (ofOpenGroups.parse { Options.standard with tracing := true } .nothing ['(']).events,
      event.reentered? ≠ some "group" := by
    decide +kernel
  exact hevents _ hl rfl

end Grammar

end Packrat

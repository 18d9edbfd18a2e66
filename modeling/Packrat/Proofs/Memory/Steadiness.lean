/-
When a verdict holds wherever its question is asked. Apart from what is remembered, trying an
expression depends on the rule entered last and on the rule around it. It does not where the rule
entered last cannot be come back to; a grammar is steady if that is so of all that its rules try,
except for cycles: rules that come back to themselves in alternatives that are the rule or begin with
it, that come before some other alternative and, those that begin with the rule, occur nowhere else.
-/
import Packrat.Proofs.Grammar.Asking
import Packrat.Proofs.Memory.Forgetting
import Packrat.Proofs.Memory.Keeping
import Packrat.Proofs.Parse.Collecting

namespace Packrat

open Filter

/-! ## Quiet -/

/-- The same place inside another rule. -/
def Setting.under (setting : Setting) (rule : Option String) : Setting := { setting with rule }

theorem Setting.under_eq {setting : Setting} {rule : Option String} (h : setting.rule = rule) :
    setting.under rule = setting := by
  subst h
  rfl

/-- An attempt that holds without getting further than a location. -/
def Attempt.Idle (location : Location) : Attempt → Prop
  | .settled (.matched t) => t.extent.stop ≤ location
  | .settled (.omitted span) => span.stop ≤ location
  | .settled (.silent _) => True
  | _ => False

/-- Somewhere in the text the expression holds without taking input. -/
def Job.Stays (job : Job) (e : Expr) : Prop :=
  ∃ setting m a, setting.position.Sits job.input ∧ a.Idle setting.location ∧
    ∀ᶠ n in atTop, (applyWithin job.forgetful n e setting).Tells m a

/-- The rule entered last was entered here or before, and if it was here, then trying the expression
cannot come back to it. -/
def Job.Quiet (job : Job) (m : Mark) (e : Expr) (setting : Setting) : Prop :=
  ∀ r l, m = some (r, l) → l ≤ setting.location ∧
    (l = setting.location → ¬ Opens job.Stays (job.skipper? setting.skipping) r e)

namespace Job.Quiet

variable {job : Job} {m : Mark} {e part : Expr} {parts : List Expr} {n : Nat} {setting : Setting} {p : Position}

theorem unmarked : job.Quiet none e setting := nofun

/-- What a quiet expression tries, here or further on, is quiet. -/
theorem further (h : job.Quiet m e setting) (hle : setting.location ≤ p.location)
    (hp : setting.location = p.location → ∀ r, ¬ Opens job.Stays (job.skipper? setting.skipping) r e →
      ¬ Opens job.Stays (job.skipper? setting.skipping) r part) : job.Quiet m part (setting.moved p) := by
  intro r l hm
  obtain ⟨hl, hn⟩ := h r l hm
  refine ⟨Location.le_trans hl hle, fun he => ?_⟩
  have hl' : l = p.location := he
  have heq : setting.location = p.location := Location.le_antisymm hle (hl' ▸ hl)
  exact hp heq r (hn (hl'.trans heq.symm))

theorem moved (h : job.Quiet m e setting) (hle : setting.location ≤ p.location) : job.Quiet m e (setting.moved p) :=
  h.further hle fun _ _ hn => hn

theorem of_part (h : job.Quiet m e setting) (hc : e.chain? = none) (hp : part ∈ e.parts) : job.Quiet m part setting :=
  h.further (Location.le_refl _) fun _ _ hn => not_opens_part hn hc hp

theorem skipper {s : Expr} (h : job.Quiet m e setting) (he : e.Skips) (hs : job.skipper? setting.skipping = some s) :
    job.Quiet m s setting :=
  h.further (Location.le_refl _) fun _ _ hn ho => hn (.skipper he hs ho)

/-- A merge is as quiet as a sequence of its parts. -/
theorem chain (h : job.Quiet m e setting) (hc : e.chain? = some parts) : job.Quiet m (.sequence parts) setting := by
  refine h.further (Location.le_refl _) fun _ r hn ho => hn ?_
  cases ho with
  | chain hc' hb ho =>
    cases hc'
    exact .chain hc hb ho
  | part hc' => cases hc'
  | skipper he hs ho =>
    refine .skipper ?_ hs ho
    cases e <;> simp_all [Expr.chain?, Expr.Skips]

/-- The next part of a sequence. -/
theorem first (h : job.Quiet m (.sequence (parts.drop n)) setting) (hp : parts[n]? = some part) :
    job.Quiet m part setting := by
  obtain ⟨hlt, rfl⟩ := List.getElem?_eq_some_iff.1 hp
  rw [List.drop_eq_getElem_cons hlt] at h
  exact h.further (Location.le_refl _) fun _ _ hn ho => hn (@Opens.chain _ _ _ _ _ [] _ rfl (List.forall_mem_nil _) ho)

/-- Behind a part that stays if nothing was taken, the rest of a sequence is quiet. -/
theorem behind (h : job.Quiet m (.sequence (parts.drop n)) setting) (hp : parts[n]? = some part)
    (hle : setting.location ≤ p.location) (hstays : setting.location = p.location → job.Stays part) :
    job.Quiet m (.sequence (parts.drop (n + 1))) (setting.moved p) := by
  obtain ⟨hlt, rfl⟩ := List.getElem?_eq_some_iff.1 hp
  rw [List.drop_eq_getElem_cons hlt] at h
  refine h.further hle fun heq r hn ho => hn ?_
  cases ho with
  | @chain _ part before after hc hb ho =>
    refine @Opens.chain _ _ _ _ _ (parts[n] :: before) after ?_ ?_ ho
    · exact congrArg (fun rest => some (parts[n] :: rest)) (Option.some.inj hc)
    · exact List.forall_mem_cons.2 ⟨hstays heq, hb⟩
  | part hc => cases hc
  | skipper _ hs ho => exact .skipper (List.cons_ne_nil _ _) hs ho

/-- A rule that is tried quietly does not come back to itself there. -/
theorem away {name : String} (h : job.Quiet m (.rule name) setting) : m ≠ some (name, setting.location) := by
  rintro rfl
  exact (h name _ rfl).2 rfl .rule

theorem entered {name : String} (h : ¬ Opens job.Stays (job.skipper? setting.skipping) name e) :
    job.Quiet (some (name, setting.location)) e setting := by
  rintro _ _ ⟨⟩
  exact ⟨Location.le_refl _, fun _ => h⟩

end Job.Quiet

/-! ## Cycles -/

/-- A rule whose body is a choice between alternatives that are the rule or begin with it and others. -/
structure Cycle where
  name : String
  steps : List Expr
  bases : List Expr

/-- The body of the rule. -/
def Cycle.body (r : Cycle) : Expr := .choice (r.steps ++ r.bases)

/-- The expressions outside of the alternatives in which cycles come back to themselves. -/
inductive Grammar.Outside (g : Grammar) (cycles : List Cycle) : Expr → Prop
  | start : g.Outside cycles (.rule g.start)
  | body {name : String} {body : Expr} : g.rule? name = some body → (∀ r ∈ cycles, r.name ≠ name) →
    g.Outside cycles body
  | base {r : Cycle} {e : Expr} : r ∈ cycles → e ∈ r.bases → g.Outside cycles e
  | rest {r : Cycle} {s part : Expr} {rest : List Expr} : r ∈ cycles → s ∈ r.steps →
    s.chain? = some (.rule r.name :: rest) → part ∈ rest → g.Outside cycles part
  | skipper {skipper : Expr} : g.skipper = some skipper → g.Outside cycles skipper
  | override {rule : String} {skipper : Expr} : g.override? rule = some (some skipper) → g.Outside cycles skipper
  | part {e part : Expr} : g.Outside cycles e → part ∈ e.parts → g.Outside cycles part

/-- A cycle of the grammar that comes back to itself at the beginning of its recursive alternatives
only: wherever a parse gets to the rule, no other alternative does before taking input, nor, if one of
those can hold without taking input, does what follows the rule in a recursive one. -/
structure Cycle.Closed (r : Cycle) (job : Job) : Prop where
  body : job.grammar.rule? r.name = some r.body
  steps : ∀ s ∈ r.steps, s = .rule r.name ∨ ∃ rest, s.chain? = some (.rule r.name :: rest)
  recursive : r.steps ≠ []
  grounded : r.bases ≠ []
  bases : ∀ mode, job.grammar.Reaches (.rule r.name, mode) → ∀ e ∈ r.bases,
    ¬ Opens job.Stays (job.skipper? (job.skippingIn r.name mode)) r.name e
  rest : (∃ e ∈ r.bases, job.Stays e) → ∀ mode, job.grammar.Reaches (.rule r.name, mode) → ∀ s ∈ r.steps, ∀ rest,
    s.chain? = some (.rule r.name :: rest) →
      ¬ Opens job.Stays (job.skipper? (job.skippingIn r.name mode)) r.name (.sequence rest)

/-- A job without matchers from outside, in whose grammar expressions that count as the same are the
same and rules that a parse gets to do not come back to themselves before taking input, except for some
closed cycles whose bodies and recursive alternatives occur nowhere else. -/
structure Job.Steady (job : Job) (cycles : List Cycle) : Prop where
  internal : ∀ key, ¬ job.grammar.Has (.external key)
  anchored : ∀ p, job.grammar.Has (.pattern p) → p.Anchored job.grammar.engine
  /-- Fallbacks that are lists have their items somewhere in the text, such as at its beginning. -/
  fallbacks : ∀ body bounds t, job.grammar.Has (.repetition body bounds (some t)) →
    ∀ items, t.items? = some items → ∀ item ∈ items, item.Lies (Position.Place job.input)
  distinct : ∀ e e', job.grammar.Has e → job.grammar.Has e' → e.same e' = true → e = e'
  closed : ∀ r ∈ cycles, r.Closed job
  bodies : ∀ r ∈ cycles, ¬ job.grammar.Outside cycles r.body
  apart : ∀ r ∈ cycles, ∀ s ∈ r.steps, s ≠ .rule r.name → ¬ job.grammar.Outside cycles s
  others : ∀ name body mode, job.grammar.rule? name = some body → (∀ r ∈ cycles, r.name ≠ name) →
    job.grammar.Reaches (.rule name, mode) → ¬ Opens job.Stays (job.skipper? (job.skippingIn name mode)) name body

/-- An expression that a parse gets to outside of the recursive alternatives, tried in the text and
quietly under some marks. -/
structure Job.Fair (job : Job) (cycles : List Cycle) (marks : List Mark) (e : Expr) (setting : Setting) : Prop where
  outside : job.grammar.Outside cycles e
  reached : job.grammar.Reaches (e, setting.skipping)
  sits : setting.position.Sits job.input
  quiet : ∀ m ∈ marks, job.Quiet m e setting

section

variable {job : Job} {cycles : List Cycle} {r : Cycle} {e part : Expr} {setting : Setting} {mode : SkipMode}

theorem Grammar.Mode.outside {s : Expr} (h : job.grammar.Mode mode) (hs : job.skipper? mode = some s) :
    job.grammar.Outside cycles s := by
  cases h with
  | standard => exact .skipper hs
  | off => cases hs
  | special ho =>
    cases hs
    exact .override ho

theorem Job.Fair.of_part {marks : List Mark} (h : job.Fair cycles marks e setting) (hc : e.chain? = none)
    (hp : part ∈ e.parts) : job.Fair cycles marks part setting :=
  ⟨h.outside.part hp, h.reached.tail (.part hp), h.sits, fun m hm => (h.quiet m hm).of_part hc hp⟩

namespace Job.Steady

theorem has_body (hj : job.Steady cycles) (hr : r ∈ cycles) : job.grammar.Has r.body := .body (hj.closed r hr).body

theorem has_step (hj : job.Steady cycles) (hr : r ∈ cycles) {s : Expr} (hs : s ∈ r.steps) : job.grammar.Has s :=
  (hj.has_body hr).part (List.mem_append_left _ hs)

theorem has_outside (hj : job.Steady cycles) (h : job.grammar.Outside cycles e) : job.grammar.Has e := by
  induction h with
  | start => exact .start
  | body hb => exact .body hb
  | base hr he => exact (hj.has_body hr).part (List.mem_append_right _ he)
  | @rest r s part rest hr hs hc hp =>
    refine (hj.has_step hr hs).part ?_
    cases s <;> simp_all [Expr.chain?, Expr.parts]
  | skipper hs => exact .skipper hs
  | override ho => exact .override ho
  | part _ hp ih => exact ih.part hp

theorem step_ne_body (hj : job.Steady cycles) (hr : r ∈ cycles) {s : Expr} (hs : s ∈ r.steps) (r' : Cycle) :
    s ≠ r'.body := by
  rcases (hj.closed r hr).steps s hs with rfl | ⟨rest, hc⟩
  · nofun
  · rintro rfl
    cases hc

/-- A cycle is told by any of its recursive alternatives. -/
theorem name_of_step (hj : job.Steady cycles) {r' : Cycle} (hr : r ∈ cycles) (hr' : r' ∈ cycles) {s : Expr}
    (hs : s ∈ r.steps) (hs' : s ∈ r'.steps) : r.name = r'.name := by
  rcases (hj.closed r hr).steps s hs with rfl | ⟨rest, hc⟩ <;> rcases (hj.closed r' hr').steps _ hs' with he | ⟨rest', hc'⟩
  · exact Expr.rule.inj he
  · cases hc'
  · subst he
    cases hc
  · have := hc.symm.trans hc'
    simp only [Option.some.injEq, List.cons.injEq, Expr.rule.injEq] at this
    exact this.1

theorem body_of_name (hj : job.Steady cycles) {r' : Cycle} (hr : r ∈ cycles) (hr' : r' ∈ cycles)
    (hn : r.name = r'.name) : r.body = r'.body := by
  refine Option.some.inj ?_
  rw [← (hj.closed r hr).body, ← (hj.closed r' hr').body, hn]

/-- A cycle is told by its body, which begins with a recursive alternative. -/
theorem name_of_body (hj : job.Steady cycles) {r' : Cycle} (hr : r ∈ cycles) (hr' : r' ∈ cycles)
    (hb : r.body = r'.body) : r.name = r'.name := by
  obtain ⟨s, others, hs⟩ := List.exists_cons_of_ne_nil (hj.closed r hr).recursive
  obtain ⟨s', others', hs'⟩ := List.exists_cons_of_ne_nil (hj.closed r' hr').recursive
  have halternatives := Expr.choice.inj hb
  rw [hs, hs', List.cons_append, List.cons_append, List.cons.injEq] at halternatives
  refine hj.name_of_step hr hr' (hs ▸ List.mem_cons_self) ?_
  rw [halternatives.1, hs']
  exact List.mem_cons_self

end Job.Steady

/-! ## Checks -/

/-- Whether an expression can open a rule, when any other may hold without taking input. -/
def Expr.mayOpen (r : String) (e : Expr) : Bool := e.opens (fun _ => true) r

/-- Whether an expression begins with a rule that what follows does not come back to. -/
def Expr.mayStep (r : String) (e : Expr) : Bool := e.begins (fun _ => true) r

theorem Expr.exists_of_mayStep {r : String} {e : Expr} (h : e.mayStep r = true) :
    ∃ rest, e.chain? = some (.rule r :: rest) ∧ (Expr.sequence rest).mayOpen r = false := by
  unfold mayStep begins at h
  split at h
  · next name rest hc =>
    simp only [Bool.and_eq_true, beq_iff_eq, Bool.not_true, Bool.false_or, Bool.not_eq_true'] at h
    exact ⟨rest, h.1 ▸ hc, h.2⟩
  · cases h

/-- Whether an expression is a reference to a rule. -/
def Expr.isRule (r : String) : Expr → Bool
  | .rule name => name == r
  | _ => false

theorem Expr.eq_of_isRule {r : String} {e : Expr} (h : e.isRule r = true) : e = .rule r := by
  unfold isRule at h
  split at h
  · rw [beq_iff_eq.1 h]
  · cases h

/-- Whether an expression by itself is no pattern, no matcher from outside and has no fallback. -/
def Expr.isPlain : Expr → Bool
  | .pattern _ | .external _ | .repetition _ _ (some _) => false
  | _ => true

/-- Whether a check passes on all that may be skipped. -/
def Grammar.skips (g : Grammar) (check : Expr → Bool) : Bool :=
  g.skipper.all check && g.overrides.all (·.2.all check)

/-- Whether a check passes on all that may be skipped inside of a rule. -/
def Grammar.skipsIn (g : Grammar) (rule : String) (check : Expr → Bool) : Bool :=
  match g.override? rule with
  | some skipper => skipper.all check
  | none => g.skips check

/-- Whether a check passes on all that is tried outside of the recursive alternatives of some cycles. -/
def Grammar.outsidePasses (g : Grammar) (cycles : List Cycle) (check : Expr → Bool) : Bool :=
  check (.rule g.start) && g.rules.all (fun rule => cycles.any (·.name == rule.1) || rule.2.passes check) &&
    cycles.all (fun r => r.bases.all (·.passes check) && r.steps.all fun s => s.chain?.all (·.tail.all (·.passes check))) &&
    g.skips (·.passes check)

/-- Whether what a cycle tries opens its rule at the beginning of its recursive alternatives only. -/
def Cycle.isClosed (r : Cycle) (g : Grammar) : Bool :=
  !r.steps.isEmpty && !r.bases.isEmpty && r.steps.all (fun s => s.isRule r.name || s.mayStep r.name) &&
    r.bases.all (!·.mayOpen r.name) && g.skipsIn r.name (!·.mayOpen r.name)

/-- Whether a grammar is steady apart from some cycles. -/
def Grammar.isSteady (g : Grammar) (cycles : List Cycle) : Bool :=
  g.passes Expr.isPlain && cycles.all (·.isClosed g) &&
    g.outsidePasses cycles (fun e => !cycles.any fun r => e.same r.body || e.mayStep r.name) &&
    g.rules.all fun rule => cycles.any (·.name == rule.1) || !rule.2.mayOpen rule.1 && g.skipsIn rule.1 (!·.mayOpen rule.1)

theorem Grammar.Mode.check {check : Expr → Bool} {s : Expr} (hm : job.grammar.Mode mode) (h : job.grammar.skips check = true)
    (hs : job.skipper? mode = some s) : check s = true := by
  unfold Grammar.skips at h
  rw [Bool.and_eq_true] at h
  cases hm with
  | standard => exact (Option.all_eq_true _ _).1 h.1 s hs
  | off => cases hs
  | special ho =>
    cases hs
    exact (Option.all_eq_true _ _).1 (List.all_eq_true.1 h.2 _ (mem_of_lookup ho)) s rfl

theorem Grammar.Mode.check_inside {check : Expr → Bool} {name : String} {s : Expr} (hm : job.grammar.Mode mode)
    (h : job.grammar.skipsIn name check = true) (hs : job.skipper? (job.skippingIn name mode) = some s) : check s = true := by
  unfold Grammar.skipsIn at h
  unfold Job.skippingIn at hs
  cases ho : job.grammar.override? name with
  | none =>
    rw [ho] at h hs
    exact hm.check h hs
  | some skipper =>
    rw [ho] at h hs
    cases skipper with
    | none => cases hs
    | some skipper =>
      cases hs
      exact h

theorem Grammar.Outside.passes {g : Grammar} {check : Expr → Bool} (h : g.outsidePasses cycles check = true)
    (he : g.Outside cycles e) : e.passes check = true := by
  unfold outsidePasses skips at h
  simp only [Bool.and_eq_true] at h
  obtain ⟨⟨⟨hstart, hrules⟩, hcycles⟩, hskipper, hoverrides⟩ := h
  induction he with
  | start => exact hstart
  | @body name body hb hn =>
    have := List.all_eq_true.1 hrules _ (mem_of_lookup hb)
    rw [Bool.or_eq_true] at this
    refine this.resolve_left fun hany => ?_
    obtain ⟨r, hr, he⟩ := List.any_eq_true.1 hany
    exact hn r hr (beq_iff_eq.1 he)
  | base hr he =>
    have := List.all_eq_true.1 hcycles _ hr
    rw [Bool.and_eq_true] at this
    exact List.all_eq_true.1 this.1 _ he
  | rest hr hs hc hp =>
    have := List.all_eq_true.1 hcycles _ hr
    rw [Bool.and_eq_true] at this
    have := List.all_eq_true.1 this.2 _ hs
    rw [hc] at this
    exact List.all_eq_true.1 this _ hp
  | skipper hs => exact (Option.all_eq_true _ _).1 hskipper _ hs
  | override ho => exact (Option.all_eq_true _ _).1 (List.all_eq_true.1 hoverrides _ (mem_of_lookup ho)) _ rfl
  | part _ hp ih => exact Expr.passes_part ih hp

theorem not_opens_of_skips {stays : Expr → Prop} {name : String} (hm : job.grammar.Mode mode)
    (hs : job.grammar.skipsIn name (!·.mayOpen name) = true) (he : e.mayOpen name = false) :
    ¬ Opens stays (job.skipper? (job.skippingIn name mode)) name e :=
  not_opens_of_check (fun _ _ => rfl) (fun _ hsome => by simpa [Expr.mayOpen] using hm.check_inside hs hsome) he

theorem Cycle.closed_of_check (hb : job.grammar.rule? r.name = some r.body) (h : r.isClosed job.grammar = true) :
    r.Closed job := by
  unfold isClosed at h
  simp only [Bool.and_eq_true, Bool.not_eq_true', List.isEmpty_eq_false_iff, List.all_eq_true] at h
  obtain ⟨⟨⟨⟨hsteps, hbases⟩, hstep⟩, hbase⟩, hskips⟩ := h
  have kinds {s : Expr} (hs : s ∈ r.steps) : s = .rule r.name ∨ ∃ rest, s.chain? = some (.rule r.name :: rest) ∧
      (Expr.sequence rest).mayOpen r.name = false :=
    (Bool.or_eq_true_iff.1 (hstep s hs)).imp Expr.eq_of_isRule Expr.exists_of_mayStep
  refine ⟨hb, fun s hs => ?_, hsteps, hbases, fun mode hm e he => ?_, fun _ mode hm s hs rest hc => ?_⟩
  · exact (kinds hs).imp_right fun ⟨rest, hc, _⟩ => ⟨rest, hc⟩
  · exact not_opens_of_skips hm.has.2.1 hskips (hbase e he)
  · rcases kinds hs with rfl | ⟨rest', hc', hn⟩
    · cases hc
    · cases hc.symm.trans hc'
      exact not_opens_of_skips hm.has.2.1 hskips hn

/-- A grammar that passes the check is steady on every text. -/
theorem Job.steady_of_check (hb : ∀ r ∈ cycles, job.grammar.rule? r.name = some r.body)
    (h : job.grammar.isSteady cycles = true) : job.Steady cycles := by
  unfold Grammar.isSteady at h
  simp only [Bool.and_eq_true] at h
  obtain ⟨⟨⟨hplain, hclosed⟩, houtside⟩, hrules⟩ := h
  have apart {e : Expr} {r : Cycle} (hr : r ∈ cycles) (ho : job.grammar.Outside cycles e)
      (he : (e.same r.body || e.mayStep r.name) = true) : False := by
    have := Expr.check_of_passes (ho.passes houtside)
    rw [List.any_eq_true.2 ⟨r, hr, he⟩] at this
    cases this
  refine ⟨fun _ he => ?_, fun _ he => ?_, fun _ _ _ he => ?_, fun _ _ he _ hs => ?_, fun r hr => ?_, fun r hr ho => ?_,
    fun r hr s hs hne ho => ?_, fun name body mode hbody hn hm => ?_⟩
  · cases he.check hplain
  · cases he.check hplain
  · cases he.check hplain
  · refine Expr.eq_of_same (he.throughout fun e he => ?_) hs
    have := he.check hplain
    cases e with
    | repetition body bounds fallback => cases fallback <;> first | rfl | cases this
    | _ => rfl
  · exact Cycle.closed_of_check (hb r hr) (List.all_eq_true.1 hclosed r hr)
  · exact apart hr ho (Bool.or_eq_true_iff.2 (.inl (Expr.same_iff.2 rfl)))
  · have hclosed := List.all_eq_true.1 hclosed r hr
    unfold Cycle.isClosed at hclosed
    simp only [Bool.and_eq_true] at hclosed
    have hstep := List.all_eq_true.1 hclosed.1.1.2 s hs
    refine apart hr ho (Bool.or_eq_true_iff.2 (.inr ?_))
    exact (Bool.or_eq_true_iff.1 hstep).resolve_left fun he => hne (Expr.eq_of_isRule he)
  · have := List.all_eq_true.1 hrules _ (Grammar.mem_of_lookup hbody)
    rw [Bool.or_eq_true, Bool.and_eq_true, Bool.not_eq_true'] at this
    rcases this with hany | ⟨hbody, hskips⟩
    · obtain ⟨r, hr, he⟩ := List.any_eq_true.1 hany
      exact absurd (beq_iff_eq.1 he) (hn r hr)
    · exact not_opens_of_skips hm.has.2.1 hskips hbody

end

end Packrat

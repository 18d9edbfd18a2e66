/-
Rules that begin with themselves in their first alternative, in a sequence that occurs nowhere else.
A verdict on the sequence is remembered only where one on the body is: it comes about when the body
has found a seed, and then the body is settled too. So wherever the body is worked out anew, the
sequence is set aside anew.
-/
import Packrat.Proofs.Grammar.Breakage
import Packrat.Proofs.Memory.Keeping
import Packrat.Proofs.Session.Observers
import Packrat.Proofs.Session.Persistence

namespace Packrat

open Stance

/-- A rule whose first alternative is itself with something behind it. -/
structure Loop where
  name : String
  rest : List Expr
  bases : List Expr

namespace Loop

/-- The alternative that begins with the rule. -/
def step (r : Loop) : Expr := .sequence (.rule r.name :: r.rest)

def body (r : Loop) : Expr := .choice (r.step :: r.bases)

/-- The recursive alternative does not occur in an expression. -/
def Apart (r : Loop) (e : Expr) : Prop := e.passes (fun e => !e.same r.step) = true

/-- A grammar in which the rule has this body and the recursive alternative occurs nowhere else. -/
structure In (r : Loop) (g : Grammar) : Prop where
  body : g.rule? r.name = some r.body
  rest : ∀ e ∈ r.rest, r.Apart e
  bases : ∀ e ∈ r.bases, r.Apart e
  others : ∀ name body, name ≠ r.name → g.rule? name = some body → r.Apart body
  skipper : ∀ s, g.skipper = some s → r.Apart s
  override : ∀ name s, g.override? name = some (some s) → r.Apart s

variable {r : Loop} {e : Expr}

namespace Apart

theorem of_parts {part : Expr} (h : r.Apart e) (hp : part ∈ e.parts) : r.Apart part := Expr.passes_part h hp

theorem not_same (h : r.Apart e) : e.same r.step = false := by
  simpa using Expr.check_of_passes h

theorem rule (name : String) : r.Apart (.rule name) := rfl

end Apart

instance : DecidablePred r.Apart := fun e => inferInstanceAs (Decidable (e.passes (fun e => !e.same r.step) = true))

/-- What a grammar lists is all that it has. -/
theorem In.of_rules {g : Grammar} (hb : g.rule? r.name = some r.body)
    (hrest : ∀ e ∈ r.rest, r.Apart e) (hbases : ∀ e ∈ r.bases, r.Apart e)
    (hothers : ∀ p ∈ g.rules, p.1 ≠ r.name → r.Apart p.2) (hs : ∀ s ∈ g.skipper, r.Apart s)
    (ho : ∀ p ∈ g.overrides, ∀ s ∈ p.2, r.Apart s) : r.In g where
  body := hb
  rest := hrest
  bases := hbases
  others name body hn h := hothers (name, body) (Grammar.mem_of_lookup h) hn
  skipper s h := hs s h
  override name s h := ho (name, some s) (Grammar.mem_of_lookup h) s rfl

theorem not_same_body : r.body.same r.step = false := rfl

/-! ## Memory -/

/-- A verdict on the recursive alternative is backed by one on the body. -/
def Backed (r : Loop) (m : Memory) : Prop :=
  ∀ location mode, (m.find? ⟨r.step, location, mode⟩).isSome → (m.find? ⟨r.body, location, mode⟩).isSome

theorem backed_empty : r.Backed .empty := fun _ _ h => by simp at h

variable {m : Memory} {q : Question}

/-- Verdicts on other questions do not matter. -/
theorem Backed.insert {v : Verdict} (h : r.Backed m) (hq : q.expr.same r.step = false) : r.Backed (m.insert q v) := by
  intro location mode hs
  refine Memory.isSome_find?_insert (h location mode ?_)
  rw [Memory.find?_insert] at hs
  split at hs
  · next hb =>
    have := (Question.beq_iff.1 hb).symm
    have : q.expr.same r.step = true := Expr.same_iff.2 (congrArg Question.expr this)
    simp [hq] at this
  · exact hs

/-- A verdict on the recursive alternative is in order as soon as there is one on the body. -/
theorem Backed.insert_both {location : Location} {mode : SkipMode} {v w : Verdict} (h : r.Backed m) :
    r.Backed ((m.insert ⟨r.step, location, mode⟩ v).insert ⟨r.body, location, mode⟩ w) := by
  intro location' mode' hs
  rw [Memory.find?_insert]
  split
  · rfl
  · next hb =>
    refine Memory.isSome_find?_insert (h location' mode' ?_)
    rw [Memory.find?_insert, Memory.find?_insert] at hs
    split at hs
    · next hb' =>
      have := Expr.same_iff.2 (congrArg Question.expr (Question.beq_iff.1 hb'))
      cases this
    · split at hs
      · next hb' =>
        -- the two questions ask for the same place under the same skipper
        refine absurd (Question.beq_iff.2 ?_) hb
        have he := Question.beq_iff.1 hb'
        simp only [Question.content, Question.mk.injEq] at he ⊢
        exact ⟨trivial, he.2⟩
      · exact hs

/-! ## Suspensions -/

/-- A setting in which nothing skipped contains the recursive alternative. -/
def Clears (r : Loop) (job : Job) (setting : Setting) : Prop :=
  ∀ s, job.skipper? setting.skipping = some s → r.Apart s

/-- A run of parts that do not contain the recursive alternative. -/
structure Runs (r : Loop) (job : Job) (run : Run) : Prop where
  parts : ∀ part ∈ run.parts, r.Apart part
  clears : r.Clears job run.setting

/-- A suspension in which the verdict on the recursive alternative is remembered right before the
one on the body. -/
def Tidy (r : Loop) (job : Job) : Suspension → Prop
  | [] => True
  | .sequence run :: others => r.Runs job run ∧ Tidy r job others
  | .wrapping _ :: others => Tidy r job others
  | .memory q :: others => (q.expr.same r.step = true → q.expr = r.step ∧
      ∃ more, others = .memory ⟨r.body, q.location, q.skipping⟩ :: more) ∧ Tidy r job others

/-- An attempt whose suspension, if there is one, is tidy. That a grammar has no start is not found by trying expressions. -/
def Neat (r : Loop) (job : Job) : Attempt → Prop
  | .recursion (some suspension) => r.Tidy job suspension
  | .broken error => error ≠ .noStart
  | .recursion none | .settled _ => True

variable {job : Job} {a : Attempt}

theorem Tidy.append : ∀ {xs ys : Suspension}, r.Tidy job xs → r.Tidy job ys → r.Tidy job (xs ++ ys)
  | [], _, _, hy => hy
  | .sequence _ :: _, _, hx, hy => ⟨hx.1, Tidy.append hx.2 hy⟩
  | .wrapping _ :: xs, _, hx, hy => by
    have hmore := Tidy.append (show r.Tidy job xs from hx) hy
    exact hmore
  | .memory _ :: _, ys, hx, hy => by
    refine ⟨fun h => ?_, Tidy.append hx.2 hy⟩
    obtain ⟨he, more, hm⟩ := hx.1 h
    exact ⟨he, more ++ ys, by rw [hm]; rfl⟩

/-- Wrapping a result finds nothing wrong but how many fields it has. -/
theorem produce_ne_noStart {rule : String} {tree : Tree} {error : GrammarError} (h : job.grammar.produce rule tree = .error error) :
    error ≠ .noStart := by
  rintro rfl
  obtain ⟨_, _, _, -, -, -, h⟩ := Grammar.misfit_of_produce h
  cases h

theorem Neat.push {suspension : Suspension} {waiting : Waiting} (h : r.Neat job (.recursion (some suspension)))
    (hw : r.Tidy job [waiting]) : r.Neat job (.recursion (some (suspension ++ [waiting]))) :=
  Tidy.append h hw

/-! ## Parsing -/

/-- The stance of a parse in whose memory verdicts on the recursive alternative are backed. -/
def stance (r : Loop) (job : Job) (mark : Mark) (depth : Nat) : Stance := ⟨job, .none, r.Backed, mark, depth⟩

/-- Trying an expression that does not contain the recursive alternative leaves the memory in order. -/
def Orders (r : Loop) (job : Job) (mark : Mark) (depth : Nat) (apply : Applier) : Prop :=
  ∀ e setting, r.Apart e → r.Clears job setting → (r.stance job mark depth).Yields True (apply e setting) (r.Neat job)

section

variable {mark : Mark} {depth : Nat} {apply : Applier} {run : Run} {setting : Setting}

theorem skipBetween_orders (h : r.Orders job mark depth apply) (hc : r.Clears job setting) {acc : Accumulator} :
    (r.stance job mark depth).Yields True (skipBetween job apply setting acc) fun
      | .ok _ => True
      | .error error => error ≠ .noStart := by
  unfold skipBetween
  split
  · exact .pure fun _ => trivial
  · next skipper hs =>
    refine .next (fun _ => id) (h skipper _ (hc _ hs) hc) fun a ha => ?_
    split
    · exact .pure fun _ => ha
    · exact .pure fun _ => trivial

theorem absorb_orders (h : r.Orders job mark depth apply) (hr : r.Runs job run) (ha : r.Neat job a) :
    (r.stance job mark depth).Yields True (run.absorb job apply a) fun
      | .ok further => r.Runs job further
      | .error a => r.Neat job a := by
  unfold Run.absorb
  split
  · exact .pure fun _ => ⟨hr.parts, hr.clears⟩
  · exact .pure fun _ => ⟨hr.parts, hr.clears⟩
  · exact .pure fun _ => ⟨hr.parts, hr.clears⟩
  · refine .next (fun _ => id) (skipBetween_orders h hr.clears) fun skipped hskipped => ?_
    split
    · exact .pure fun _ => ⟨hr.parts, hr.clears⟩
    · exact .pure fun _ => trivial
    · exact .pure fun _ => hskipped
  · exact .pure fun _ => ha.push ⟨hr, trivial⟩
  · exact .pure fun _ => trivial
  · exact .pure fun _ => ha

theorem drive_orders (h : r.Orders job mark depth apply) : ∀ {fuel : Nat} {run : Run}, r.Runs job run →
    (r.stance job mark depth).Yields True (run.drive job apply fuel) fun
      | .ok further => r.Runs job further
      | .error a => r.Neat job a
  | 0, _, _ => .pure fun _ => trivial
  | fuel + 1, run, hr => by
    unfold Run.drive
    split
    · exact .pure fun _ => hr
    · next part hp =>
      refine .next_get (fun _ => id) fun s _ => .ite (fun _ => ?_) fun _ => ?_
      · exact .bind .reportReentry fun _ => .pure fun _ => ⟨⟨hr.parts, hr.clears⟩, trivial⟩
      · refine .next (fun _ => id) (h part run.here (hr.parts _ (List.mem_of_getElem? hp)) hr.clears) fun a ha => ?_
        refine .next (fun _ => id) (absorb_orders h hr ha) fun b hb => ?_
        cases b with
        | ok further => exact drive_orders h hb
        | error attempt => exact .pure fun _ => hb

theorem tail_orders (h : r.Orders job mark depth apply) (hr : r.Runs job run) {cursor : Position} :
    (r.stance job mark depth).Yields True (run.tail job apply cursor) (r.Neat job) := by
  have hfurther : r.Runs job (Run.new run.parts run.flatten (run.setting.moved cursor) 1) := ⟨hr.parts, hr.clears⟩
  refine .next (fun _ => id) (drive_orders h hfurther) fun b hb => ?_
  cases b with
  | ok further => exact .pure fun _ => trivial
  | error attempt => exact .pure fun _ => hb

theorem extend_orders (h : r.Orders job mark depth apply) (hr : r.Runs job run) : ∀ {fuel : Nat} {cursor : Position}
    {tree : Tree}, (r.stance job mark depth).Yields True (run.extend job apply fuel cursor tree) (r.Neat job)
  | 0, _, _ => .pure fun _ => trivial
  | fuel + 1, cursor, tree => by
    unfold Run.extend
    refine .ite (fun _ => .pure fun _ => trivial) fun _ => ?_
    refine .next (fun _ => id) (tail_orders h hr) fun a ha => ?_
    split
    · refine .ite (fun _ => .pure fun _ => trivial) fun _ => ?_
      refine .bind (.count (fun _ => Nat.le_refl _) fun _ => Nat.le_refl _) fun _ => .bind .note fun _ => ?_
      exact (extend_orders h hr).guard fun _ => trivial
    · exact .pure fun _ => ha
    · exact .pure fun _ => trivial

theorem finish_orders (h : r.Orders job mark depth apply) (hr : r.Runs job run) :
    (r.stance job mark depth).Yields True (run.finish job apply) (r.Neat job) := by
  refine .next (fun _ => id) (drive_orders h hr) fun b hb => ?_
  cases b with
  | ok further => exact .ite (fun _ => extend_orders h hb) fun _ => .pure fun _ => trivial
  | error attempt => exact .pure fun _ => hb

theorem resumeRun_orders (h : r.Orders job mark depth apply) (hr : r.Runs job run) (ha : r.Neat job a) :
    (r.stance job mark depth).Yields True (run.resume job apply a) (r.Neat job) := by
  have hseed : r.Neat job (if run.needsSeed then run.seeded job a else a) := by
    split
    · unfold Run.seeded
      split
      · split
        · split
          · trivial
          · next hp => exact produce_ne_noStart hp
        · trivial
      · exact ha
    · exact ha
  have hr' : r.Runs job { run with needsSeed := false } := ⟨hr.parts, hr.clears⟩
  refine .next (fun _ => id) (absorb_orders h hr' hseed) fun b hb => ?_
  cases b with
  | ok further => exact finish_orders h hb
  | error attempt => exact .pure fun _ => hb

/-- A verdict on the recursive alternative and then on the body is remembered. -/
theorem rememberBoth_orders {location : Location} {mode : SkipMode} {more : Suspension} {v : Verdict}
    (hmore : (r.stance job mark depth).Yields True (Suspension.resume job apply more (.settled v)) (r.Neat job)) :
    (r.stance job mark depth).Yields True (Suspension.resume job apply
      (.memory ⟨r.step, location, mode⟩ :: .memory ⟨r.body, location, mode⟩ :: more) (.settled v)) (r.Neat job) := by
  -- in between there is a verdict on the recursive alternative only
  let between (m' : Memory) : Prop := ∃ m, r.Backed m ∧
    m' = if job.options.remember then m.insert ⟨r.step, location, mode⟩ v else m
  rw [Suspension.resume, yields_iff]
  refine Leaves.bind (Q := (· = .settled v)) (M := fun _ => between) (Yields.remember_leaves ?_ ?_ fun _ => rfl) fun a => ?_
  · rintro - hr w m hw hm
    cases hw
    exact ⟨m, hm, (if_pos hr).symm⟩
  · rintro - hn m hm
    refine ⟨m, hm, (if_neg fun hr => hn hr v rfl).symm⟩
  refine Leaves.given (fun _ => id) fun ⟨_, ha⟩ => ?_
  subst ha
  show Leaves _ True (Suspension.resume job apply (.memory ⟨r.body, location, mode⟩ :: more) (.settled v)) _ _
  rw [Suspension.resume]
  refine Leaves.next (fun _ => id) (Q := (· = .settled v)) (M := fun _ => r.Backed) (Yields.remember_leaves ?_ ?_ fun _ => rfl)
    fun a ha => ?_
  · rintro - hr w m hw ⟨m', hm', rfl⟩
    cases hw
    have hr : job.options.remember = true := hr
    rw [if_pos hr]
    exact hm'.insert_both
  · rintro - hn m ⟨m', hm', rfl⟩
    have hn : ¬ job.options.remember = true := fun hr => hn hr v rfl
    rw [if_neg hn]
    exact hm'
  subst ha
  exact hmore

theorem remember_orders {q : Question} (hq : ∀ v, a = .settled v → q.expr.same r.step = false) :
    (r.stance job mark depth).Yields True (Eval.remember job q a) (· = a.awaiting job q) :=
  .remember (fun _ v _ ha hm => hm.insert (hq v ha)) fun _ => rfl

theorem Neat.awaiting {q : Question} (h : r.Neat job a) (hq : q.expr.same r.step = false) : r.Neat job (a.awaiting job q) := by
  unfold Attempt.awaiting
  split
  · split
    · exact h.push ⟨fun hs => by simp [hq] at hs, trivial⟩
    · exact h
  · exact h

theorem Neat.wrapAttempt {rule : String} (h : r.Neat job a) : r.Neat job (wrapAttempt job rule a) := by
  unfold Packrat.wrapAttempt
  split
  · split
    · trivial
    · next hp => exact produce_ne_noStart hp
  · exact h.push trivial
  · exact h

/-- Where the innermost work leaves the memory in order, so does all work, if the rest of it does. -/
theorem resumeWork_orders {work : Waiting} {others : Suspension} {Q : Attempt → Prop}
    (hwork : (r.stance job mark depth).Yields True (work.resume job apply a) Q)
    (htidy : ∀ suspension, Q (.recursion (some suspension)) → r.Tidy job (suspension ++ others))
    (hstart : ∀ error, Q (.broken error) → error ≠ .noStart)
    (hothers : ∀ b, r.Neat job b → (r.stance job mark depth).Yields True (Suspension.resume job apply others b) (r.Neat job)) :
    (r.stance job mark depth).Yields True (Suspension.resume job apply (work :: others) a) (r.Neat job) := by
  rw [Suspension.resume]
  refine .next (fun _ => id) hwork fun b hb => ?_
  split
  · exact .pure fun _ => htidy _ hb
  · next hn =>
    refine hothers b ?_
    rcases b with v | (_ | suspension) | error
    · trivial
    · trivial
    · exact absurd rfl (hn _)
    · exact hstart _ hb

/-- Resumed work leaves the memory in order, whatever it is resumed with. -/
theorem resume_orders (h : r.Orders job mark depth apply) : ∀ {suspension : Suspension} {a : Attempt},
    r.Tidy job suspension → r.Neat job a →
      (r.stance job mark depth).Yields True (Suspension.resume job apply suspension a) (r.Neat job)
  | [], _, _, ha => .pure fun _ => ha
  | .sequence run :: others, a, hs, ha =>
    resumeWork_orders (resumeRun_orders h hs.1 ha) (fun _ hb => Tidy.append hb hs.2) (fun _ hb => hb) fun _ =>
      resume_orders h hs.2
  | .wrapping rule :: others, a, hs, ha =>
    resumeWork_orders (Q := r.Neat job) (.pure fun _ => ha.wrapAttempt) (fun _ hb => Tidy.append hb hs) (fun _ hb => hb)
      fun _ => resume_orders h hs
  | .memory q :: others, a, hs, ha => by
    obtain ⟨hq, hs⟩ := hs
    have hothers (b : Attempt) (hb : r.Neat job b) :
        (r.stance job mark depth).Yields True (Suspension.resume job apply others b) (r.Neat job) := resume_orders h hs hb
    cases hsame : q.expr.same r.step with
    | false =>
      have hneat := ha.awaiting hsame
      refine resumeWork_orders (remember_orders fun _ _ => hsame) (fun suspension hb => ?_) (fun error hb => ?_) hothers
      · rw [← hb] at hneat
        exact Tidy.append hneat hs
      · rw [← hb] at hneat
        exact hneat
    | true =>
      obtain ⟨he, more, rfl⟩ := hq hsame
      obtain ⟨_, location, mode⟩ := q
      subst he
      by_cases hv : ∃ v, a = .settled v
      · obtain ⟨v, rfl⟩ := hv
        exact rememberBoth_orders (resume_orders h hs.2 trivial)
      · -- nothing is remembered, but a new suspension may wait for the verdict
        refine resumeWork_orders (remember_orders fun v ha => absurd ⟨v, ha⟩ hv) (fun suspension hb => ?_) (fun error hb => ?_)
          hothers
        · obtain ⟨before, rfl, rfl | rfl⟩ := Attempt.awaiting_eq_recursion hb.symm
          · exact Tidy.append ha hs
          · rw [List.append_assoc]
            exact Tidy.append ha ⟨fun _ => ⟨rfl, more, rfl⟩, hs⟩
        · obtain rfl := Attempt.awaiting_eq_broken hb.symm
          exact ha

theorem plantSeed_orders (h : r.Orders job mark depth apply) {suspension : Suspension} {seed : Tree}
    (hs : r.Tidy job suspension) :
    (r.stance job mark depth).Yields True (plantSeed job apply suspension seed) (r.Neat job) := by
  refine .bind .note fun _ => .bind .emit fun _ => .bind (.count (fun _ => Nat.le_refl _) fun _ => Nat.le_refl _) fun _ => ?_
  refine .guard ?_ fun _ => trivial
  refine .next (fun _ => id) (resume_orders h hs trivial) fun a ha => ?_
  split
  · exact .pure fun _ => trivial
  · exact .pure fun _ => trivial
  · exact .pure fun _ => ha

theorem tryChoice_orders (h : r.Orders job mark depth apply) (hc : r.Clears job setting) :
    ∀ {alternatives : List Expr} {tried : Tried}, (∀ e ∈ alternatives, r.Apart e) →
      (∀ suspension, tried.recursion = some (some suspension) → r.Tidy job suspension) →
        (r.stance job mark depth).Yields True (tryChoice job apply setting alternatives tried) (r.Neat job)
  | [], tried, _, ht => by
    refine .pure fun _ => ?_
    unfold Tried.exhausted
    split
    · trivial
    · next suspension _ hr =>
      cases suspension with
      | none => trivial
      | some suspension => exact ht _ hr
    · trivial
  | e :: others, tried, he, ht => by
    have hothers := fun e hm => he e (List.mem_cons_of_mem _ hm)
    unfold tryChoice
    refine .next (fun _ => id) (h e setting (he e List.mem_cons_self) hc) fun a ha => ?_
    split
    · split
      · next suspension hr => exact plantSeed_orders h (ht _ hr)
      · exact .pure fun _ => trivial
    · refine .bind .emit fun _ => .bind (.count (fun _ => Nat.le_refl _) fun _ => Nat.le_refl _) fun _ => ?_
      refine .guard (tryChoice_orders h hc hothers fun suspension hr => ht suspension ?_) fun _ => trivial
      unfold Tried.failed at hr
      split at hr <;> exact hr
    · refine tryChoice_orders h hc hothers fun suspension hr => ?_
      cases hr
      exact ha
    · exact .pure fun _ => ha

theorem rounds_orders (h : r.Orders job mark depth apply) (hc : r.Clears job setting) {body : Expr} {bounds : Bounds}
    (hb : r.Apart body) : ∀ {fuel : Nat} {rounds : Rounds},
      (r.stance job mark depth).Yields True (rounds.drive job apply body bounds setting fuel) fun
        | .ok _ => True
        | .error a => r.Neat job a
  | 0, _ => .pure fun _ => trivial
  | fuel + 1, rounds => by
    unfold Rounds.drive
    refine .ite (fun _ => .pure fun _ => trivial) fun _ => ?_
    refine .next (fun _ => id) (h body _ hb hc) fun a ha => ?_
    split
    · exact .ite (fun _ => .pure fun _ => trivial) fun _ => rounds_orders h hc hb
    · exact .ite (fun _ => .pure fun _ => trivial) fun _ => rounds_orders h hc hb
    · exact .pure fun _ => trivial
    · exact .pure fun _ => trivial
    · refine .next (fun _ => id) (skipBetween_orders h hc) fun skipped hskipped => ?_
      split
      · exact rounds_orders h hc hb
      · exact .pure fun _ => trivial
      · exact .pure fun _ => hskipped
    · exact .pure fun _ => trivial
    · exact .pure fun _ => ha

theorem skipper_orders (hg : r.In job.grammar) (hc : r.Clears job setting) {name : String} {position : Position} :
    r.Clears job ⟨position, some name, job.skippingIn name setting.skipping⟩ := by
  intro s hs
  unfold Job.skippingIn at hs
  split at hs
  · next ho =>
    cases hs
    exact hg.override _ _ ho
  · cases hs
  · exact hc s hs

/-- Looking ahead and leaving out are never suspended. -/
theorem neat_of_settling {f : Attempt → Attempt} (ha : r.Neat job a) (hf : ∀ v, ∃ w, f (.settled v) = .settled w)
    (hr : ∀ suspension, f (.recursion suspension) = .recursion none) (hb : ∀ error, f (.broken error) = .broken error) :
    r.Neat job (f a) := by
  cases a with
  | settled v =>
    obtain ⟨w, hw⟩ := hf v
    rw [hw]
    trivial
  | recursion suspension =>
    rw [hr]
    trivial
  | broken error =>
    rw [hb]
    exact ha

/-- Trying an expression without the recursive alternative, where the body of the rule leaves the
memory in order too. -/
theorem evaluate_orders (hg : r.In job.grammar) (he : r.Apart e) (hc : r.Clears job setting)
    (h : r.Orders job mark depth apply)
    (hbody : e = .rule r.name → ∀ inside : Setting, r.Clears job inside → inside.location = setting.location →
      inside.rule = some r.name → (r.stance job mark depth).Yields True (apply r.body inside) (r.Neat job)) :
    (r.stance job mark depth).Yields True (evaluate job apply e setting) (r.Neat job) := by
  have hparts := fun part (hp : part ∈ e.parts) => he.of_parts hp
  cases e with
  | literal text | pattern p | external key => exact .pure fun _ => trivial
  | sequence parts => exact finish_orders h ⟨hparts, hc⟩
  | merge parts => exact finish_orders h ⟨hparts, hc⟩
  | choice alternatives => exact tryChoice_orders h hc hparts fun _ hr => nomatch hr
  | repetition body bounds fallback =>
    refine .next (fun _ => id) (rounds_orders h hc (hparts body List.mem_cons_self)) fun b hb => ?_
    split
    · exact .pure fun _ => trivial
    · exact .pure fun _ => hb
  | ahead body =>
    refine .bind (h body setting (hparts body List.mem_cons_self) hc) fun a => .given (fun _ => id) fun ⟨_, ha⟩ => .pure fun _ => ?_
    refine neat_of_settling (f := aheadAttempt job body setting) ha (fun v => ?_) (fun _ => rfl) fun _ => rfl
    cases v <;> exact ⟨_, rfl⟩
  | notAhead body =>
    refine .bind (h body setting (hparts body List.mem_cons_self) hc) fun a => .given (fun _ => id) fun ⟨_, ha⟩ => .pure fun _ => ?_
    refine neat_of_settling (f := notAheadAttempt job body setting) ha (fun v => ?_) (fun _ => rfl) fun _ => rfl
    cases v <;> exact ⟨_, rfl⟩
  | omission body =>
    refine .bind (h body setting (hparts body List.mem_cons_self) hc) fun a => .given (fun _ => id) fun ⟨_, ha⟩ => .pure fun _ => ?_
    refine neat_of_settling (f := omissionAttempt job setting) ha (fun v => ?_) (fun _ => rfl) fun _ => rfl
    rcases v with tree | (_ | _ | _) | span | failure <;> exact ⟨_, rfl⟩
  | rule name =>
    show (r.stance job mark depth).Yields True (tryRule job apply name setting) _
    unfold tryRule
    split
    · exact .pure fun _ h => by cases h
    · next body hb =>
      have hinside := @skipper_orders r job setting hg hc name setting.position
      have hy : (r.stance job mark depth).Yields True
          (apply body ⟨setting.position, some name, job.skippingIn name setting.skipping⟩) (r.Neat job) := by
        by_cases hn : name = r.name
        · subst hn
          rw [hg.body] at hb
          cases hb
          exact hbody rfl _ hinside rfl rfl
        · exact h body _ (hg.others name body hn hb) hinside
      refine .bind .emit fun _ => .bind (.count (fun _ => Nat.le_refl _) fun _ => Nat.le_refl _) fun _ => ?_
      refine .bind (hy.guard fun _ => trivial) fun a => .given (fun _ => id) fun ⟨_, ha⟩ => ?_
      exact .bind .emit fun _ => .pure fun _ => ha.wrapAttempt

end

/-! ## The body -/

/-- The recursive alternative, set aside at its beginning. -/
def aside (r : Loop) (setting : Setting) : Run :=
  { Run.new (.rule r.name :: r.rest) false setting 0 with growing := true, needsSeed := true }

/-- What waits for a seed when the recursive alternative was set aside. -/
def waiting (r : Loop) (job : Job) (setting : Setting) : Suspension :=
  .sequence (r.aside setting) :: if job.options.remember then [.memory (.of r.step setting)] else []

/-- Where the body is worked out, the recursive alternative is set aside. -/
theorem step_waits {k : Stance} {φ : Prop} (hk : ∀ m, k.memory m → r.Backed m) {setting : Setting}
    (hm : k.mark = some (r.name, setting.location)) (levels : Nat) :
    (k.asking (.of r.body setting)).Yields φ (applyWithin k.job (levels + 1) r.step setting)
      (· = .recursion (some (r.waiting k.job setting))) := by
  refine .remembering (Q := (· = (Run.new (.rule r.name :: r.rest) false setting 0).suspend)) ?_ ?_ ?_ ?_ ?_
  · -- it is not remembered, since the body is not
    rintro - hr m v ⟨hmem, hn⟩ hv
    have := hk m hmem setting.location setting.skipping (by
      show (m.find? (.of r.step setting)).isSome = true
      rw [hv]
      rfl)
    rw [show m.find? ⟨r.body, setting.location, setting.skipping⟩ = none from hn hr] at this
    cases this
  · refine .bind .reportReentry fun _ => .pure ?_
    rintro ⟨⟨-, _, ⟨⟩, -⟩, -⟩
  · show Yields _ _ (trySequence k.job (applyWithin k.job levels) (.rule r.name :: r.rest) false setting) _
    unfold trySequence Run.finish Run.fuel Run.drive
    refine .bind (Q := (· = .error (Run.new (.rule r.name :: r.rest) false setting 0).suspend)) ?_ fun b => ?_
    · refine .bind_get fun s => .ite (fun _ => .bind .reportReentry fun _ => .pure fun _ => rfl) fun hn => ?_
      refine .void (Alarm.Persists.bind (.applyWithin _ _ _) fun a => .bind (.absorb (.applyWithin _)) fun b => ?_)
        fun hs => hn ⟨rfl, ?_⟩
      · split
        · exact .drive (.applyWithin _)
        · exact .pure
      · have hentered : s.entered = some (r.name, setting.location) := hs.2.mark.trans hm
        show (s.entered == some (r.name, setting.location)) = true
        rw [hentered, beq_self_eq_true]
    · cases b with
      | ok run =>
        refine .void (Alarm.Persists.complete (.applyWithin _)) ?_
        rintro ⟨-, ⟨⟩⟩
      | error attempt => exact .pure fun hb => Except.error.inj hb.2
  · rintro - v m hv
    cases hv
  · rintro - a rfl
    show Attempt.awaiting k.job _ _ = _
    unfold Run.suspend Attempt.awaiting waiting
    cases k.job.options.remember <;> rfl

/-- The memory is in order, or will be once a verdict on the body is remembered. -/
def Closing (r : Loop) (job : Job) (setting : Setting) (a : Attempt) (m : Memory) : Prop :=
  r.Backed m ∨ (∃ v, a = .settled v) ∧ job.options.remember = true ∧
    ∃ before v, r.Backed before ∧ m = before.insert (.of r.step setting) v

section

variable {job : Job} {mark : Mark} {depth : Nat} {apply : Applier} {setting : Setting}

theorem runs_aside (hg : r.In job.grammar) (hc : r.Clears job setting) : r.Runs job (r.aside setting) where
  parts part hp := by
    rcases List.mem_cons.1 hp with rfl | hp
    · exact .rule _
    · exact hg.rest part hp
  clears := hc

theorem Closing.of_settled {a b : Attempt} {m : Memory} (h : r.Closing job setting a m) (hb : ∃ v, b = .settled v) :
    r.Closing job setting b m := h.imp_right fun ⟨_, hm⟩ => ⟨hb, hm⟩

/-- What the recursive alternative comes to is remembered if it is definite. -/
theorem resumeWaiting_closes (hg : r.In job.grammar) (h : r.Orders job mark depth apply) (hc : r.Clears job setting)
    {seed : Tree} : (r.stance job mark depth).Leaves True
      (Suspension.resume job apply (r.waiting job setting) (.settled (.matched seed)))
      (fun a => ∀ error, a = .broken error → error ≠ .noStart) (r.Closing job setting) := by
  rw [waiting, Suspension.resume]
  refine Leaves.next (fun _ => id) (yields_iff.1 (resumeRun_orders h (runs_aside hg hc) trivial)) fun a ha => ?_
  split
  · exact .pure (fun _ _ h => by cases h) fun _ _ => .inl
  · next hn =>
    have hstart : ∀ error, a = .broken error → error ≠ .noStart := by
      rintro error rfl
      exact ha
    cases hr : job.options.remember with
    | false => exact .pure (fun _ => hstart) fun _ _ => .inl
    | true =>
      have hawaiting : a.awaiting job (.of r.step setting) = a := by
        unfold Attempt.awaiting
        split
        · exact absurd rfl (hn _)
        · rfl
      rw [if_pos rfl, Suspension.resume]
      refine Leaves.next (fun _ => id) (Q := (· = a)) (M := fun _ => r.Closing job setting a)
        (Yields.remember_leaves ?_ ?_ ?_) fun b hb => ?_
      · rintro - - v m rfl hm
        exact .inr ⟨⟨v, rfl⟩, hr, m, v, hm, rfl⟩
      · rintro - - m hm
        exact .inl hm
      · rintro -
        exact hawaiting
      · subst hb
        split
        · exact absurd rfl (hn _)
        · exact .pure (fun _ => hstart) fun _ _ => id

/-- A seed closes the loop. -/
theorem plantWaiting_closes (hg : r.In job.grammar) (h : r.Orders job mark depth apply) (hc : r.Clears job setting)
    {seed : Tree} : (r.stance job mark depth).Leaves True (plantSeed job apply (r.waiting job setting) seed)
      (r.Neat job) (r.Closing job setting) := by
  refine Leaves.bind (yields_iff.1 .note) fun _ => Leaves.bind (yields_iff.1 .emit) fun _ => ?_
  refine Leaves.bind (yields_iff.1 (.count (fun _ => Nat.le_refl _) fun _ => Nat.le_refl _)) fun _ => ?_
  refine Leaves.guard ?_ fun _ => trivial
  refine Leaves.bind (resumeWaiting_closes hg h hc) fun a => ?_
  split
  · exact .pure (fun _ => trivial) fun _ m hm => hm.of_settled ⟨_, rfl⟩
  · exact .pure (fun _ => trivial) fun _ m hm => hm.of_settled ⟨_, rfl⟩
  · next hf hr =>
    refine .pure (fun hstart => ?_) fun _ m => id
    cases a with
    | settled v => trivial
    | recursion suspension => exact absurd rfl (hr suspension)
    | broken error => exact hstart.2 error rfl

/-- The other alternatives close the loop, or leave it to what is around the rule. -/
theorem tryBases_closes (hg : r.In job.grammar) (h : r.Orders job mark depth apply) (hc : r.Clears job setting) :
    ∀ {bases : List Expr} {tried : Tried}, (∀ e ∈ bases, r.Apart e) →
      tried.recursion = some (some (r.waiting job setting)) →
        (r.stance job mark depth).Leaves True (tryChoice job apply setting bases tried)
          (fun a => r.Neat job a ∨ a = .recursion (some (r.waiting job setting))) (r.Closing job setting)
  | [], tried, _, ht => by
    refine .pure (fun _ => ?_) fun _ _ => .inl
    unfold Tried.exhausted
    split
    · exact .inl trivial
    · next hr =>
      rw [ht] at hr
      cases hr
      exact .inr rfl
    · exact .inl trivial
  | e :: others, tried, he, ht => by
    have hothers := fun e hm => he e (List.mem_cons_of_mem _ hm)
    unfold tryChoice
    refine Leaves.next (fun _ => id) (yields_iff.1 (h e setting (he e List.mem_cons_self) hc)) fun a ha => ?_
    split
    · rw [ht]
      exact (plantWaiting_closes hg h hc).post fun _ _ => .inl
    · refine Leaves.bind (yields_iff.1 .emit) fun _ => ?_
      refine Leaves.bind (yields_iff.1 (.count (fun _ => Nat.le_refl _) fun _ => Nat.le_refl _)) fun _ => ?_
      refine Leaves.guard (tryBases_closes hg h hc hothers ?_) fun _ => trivial
      unfold Tried.failed
      split <;> exact ht
    · refine (tryChoice_orders h hc hothers fun suspension hr => ?_).leaves (fun _ _ _ => .inl) |>.post fun _ _ => .inl
      cases hr
      exact ha
    · exact .pure (fun _ => .inl ha) fun _ _ => .inl

/-- Where the recursive alternative is set aside, or fails, working out the body closes the loop or leaves it to what is
around the rule. -/
theorem tryBody_closes (hg : r.In job.grammar) (h : r.Orders job mark depth apply) (hc : r.Clears job setting)
    (hstep : ((r.stance job mark depth).asking (.of r.body setting)).Yields True (apply r.step setting) fun a =>
      a = .recursion (some (r.waiting job setting)) ∨ ∃ failure, a = .settled (.failed failure)) :
    ((r.stance job mark depth).asking (.of r.body setting)).Leaves True (evaluate job apply r.body setting)
      (fun a => r.Neat job a ∨ a = .recursion (some (r.waiting job setting))) (r.Closing job setting) := by
  show Leaves _ True (tryChoice job apply setting (r.step :: r.bases) .nothing) _ _
  unfold tryChoice
  refine Leaves.next (fun _ => id) (hstep.leaves (M := fun _ => r.Backed) fun _ _ _ => And.left) fun a ha => ?_
  rcases ha with rfl | ⟨failure, rfl⟩
  · exact tryBases_closes hg h hc hg.bases rfl
  · refine Leaves.bind (yields_iff.1 .emit) fun _ => ?_
    refine Leaves.bind (yields_iff.1 (.count (fun _ => Nat.le_refl _) fun _ => Nat.le_refl _)) fun _ => ?_
    refine Leaves.guard ((tryChoice_orders h hc hg.bases fun suspension hr => ?_).leaves
      (fun _ _ _ => .inl) |>.post fun _ _ => .inl) fun _ => trivial
    unfold Tried.failed at hr
    split at hr <;> cases hr

/-- Working out the body leaves the memory in order once the verdict on it is remembered. -/
theorem body_orders (hg : r.In job.grammar) {levels : Nat}
    (h : ∀ mark depth, r.Orders job mark depth (applyWithin job levels)) (hc : r.Clears job setting)
    (hm : mark = some (r.name, setting.location)) :
    (r.stance job mark depth).Yields True (applyWithin job (levels + 1) r.body setting) (r.Neat job) := by
  refine .remembering_leaves (Q := fun a => r.Neat job a ∨ a = .recursion (some (r.waiting job setting)))
    (M := r.Closing job setting) (fun _ _ _ _ _ _ => trivial) ?_ ?_ ?_ ?_ ?_
  · exact .bind .reportReentry fun _ => .pure fun _ => trivial
  · refine (tryBody_closes hg (h mark (depth + 1)) hc ?_).guard fun _ => trivial
    cases levels with
    | zero => exact .pure fun _ => .inr ⟨_, rfl⟩
    | succ levels =>
      exact (step_waits (k := r.stance job mark (depth + 1)) (fun _ => id) hm levels).post fun _ _ => .inl
  · rintro - hr v m - (hm | ⟨-, -, before, w, hb, rfl⟩)
    · exact hm.insert not_same_body
    · exact hb.insert_both
  · rintro - a m - hn (hm | ⟨⟨v, hv⟩, hr, -⟩)
    · exact hm
    · exact absurd hv (hn hr v)
  · rintro - a (ha | rfl)
    · exact ha.awaiting not_same_body
    · show r.Neat job (Attempt.awaiting job _ _)
      unfold waiting Attempt.awaiting
      cases job.options.remember with
      | true =>
        refine ⟨runs_aside hg hc, fun _ => ⟨rfl, [], rfl⟩, fun hs => ?_, trivial⟩
        cases hs
      | false => exact ⟨runs_aside hg hc, trivial⟩

/-- Whatever is tried leaves the memory in order, and so does the body where the rule is entered. -/
theorem applyWithin_orders (hg : r.In job.grammar) : ∀ levels : Nat,
    (∀ mark depth, r.Orders job mark depth (applyWithin job levels)) ∧
      ∀ mark depth setting, r.Clears job setting → mark = some (r.name, setting.location) →
        (r.stance job mark depth).Yields True (applyWithin job levels r.body setting) (r.Neat job)
  | 0 => ⟨fun _ _ _ _ _ _ => .pure fun _ => trivial, fun _ _ _ _ _ => .pure fun _ => trivial⟩
  | levels + 1 => by
    obtain ⟨horders, hbody⟩ := applyWithin_orders hg levels
    refine ⟨fun mark depth e setting he hc => ?_, fun mark depth setting hc hm => body_orders hg horders hc hm⟩
    refine .remembering (Q := r.Neat job) (fun _ _ _ _ _ _ => trivial) ?_ ?_ ?_ ?_
    · exact .bind .reportReentry fun _ => .pure fun _ => trivial
    · refine (evaluate_orders hg he hc (horders _ _) fun hrule inside hinside hl _ => ?_).guard fun _ => trivial
      refine hbody _ _ inside hinside ?_
      rw [hrule, hl]
      rfl
    · rintro - v m - hm
      exact hm.insert he.not_same
    · rintro - a ha
      exact ha.awaiting he.not_same

end

end Loop

end Packrat

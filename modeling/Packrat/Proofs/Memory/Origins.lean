/-
Where remembered verdicts come from. A verdict is remembered in the course of a parse when the expression in question
was worked out, or when it had come back to the rule around it and was set aside: then the verdict is that of the
work that went on in its place. Whatever is found in memory later stems from such a call of the same parse.
-/
import Packrat.Proofs.Memory.Keeping
import Packrat.Proofs.Session.Strictness

namespace Packrat

/-! ## Calls that are worked out -/

namespace Call

/-- What is asked of memory before the call is worked out. -/
def question (call : Call) : Question := .of call.expr call.setting

/-- There is no verdict to be remembered for the call. -/
def Fresh (call : Call) (job : Job) : Prop :=
  job.options.remember = true → call.session.memory.find? call.question = none

/-- The session in which the call is worked out. -/
def within (call : Call) (job : Job) : Session :=
  (call.session.missed job).deeper job call.expr.reference? call.setting.location

/-- A call that is not worked out comes to the verdict that is remembered for it. -/
theorem recalls {call : Call} {job : Job} (h : ¬ call.Fresh job) (levels : Nat) :
    ∃ v s', call.session.memory.find? call.question = some v ∧ s'.memory = call.session.memory ∧
      (applyWithin job (levels + 1) call.expr call.setting).on call.session = (.settled v, s') := by
  obtain ⟨hr, hsome⟩ := Classical.not_imp.1 h
  obtain ⟨v, hv⟩ := Option.ne_none_iff_exists'.1 hsome
  obtain ⟨s', hnear, hon⟩ := on_remembering_of_some hr hv
  exact ⟨v, s', hv, hnear.memory, hon _⟩

/-- A verdict that a call comes to is found in memory afterwards. -/
theorem find?_of_outcome {call : Call} {job : Job} {levels : Nat} {v : Verdict} (hr : job.options.remember = true)
    (h : call.outcome job (levels + 1) = .settled v) :
    ((applyWithin job (levels + 1) call.expr call.setting).on call.session).2.memory.find? call.question = some v := by
  by_cases hfresh : call.Fresh job
  · by_cases hre : call.session.reenters call.expr call.setting.location = true
    · obtain ⟨s, -, -, hon⟩ := on_remembering_of_reenters hfresh hre
      rw [outcome, applyWithin, hon] at h
      cases h
    · have hon := @on_remembering job (evaluate job (applyWithin job levels)) _ _ _ hfresh (Bool.eq_false_iff.2 hre) _ _ rfl
      rw [outcome, applyWithin, hon] at h
      rw [applyWithin, hon]
      have ha := Attempt.awaiting_eq_settled h
      rw [ha]
      show Memory.find? (Session.recording job call.question (.settled v) _).memory call.question = some v
      rw [Session.memory_recording hr, Memory.find?_insert, if_pos BEq.rfl]
  · obtain ⟨w, s, hw, hmemory, hon⟩ := recalls hfresh levels
    rw [outcome, hon] at h
    cases h
    rw [hon, hmemory, hw]

end Call

/-- It is the verdict of the attempt, or the attempt was set aside and the verdict was awaited. -/
def Attempt.LeavesVerdict (v : Verdict) : Attempt → Prop
  | .settled w => w = v
  | .recursion (some _) => True
  | .recursion none | .broken _ => False

/-- All that is remembered stems from calls of the parse that were worked out. -/
inductive Job.Earned (job : Job) (root : Expr) : Memory → Prop
  | empty : job.Earned root .empty
  | remembered {m : Memory} {levels : Nat} {call : Call} {v : Verdict} : job.Earned root m →
    job.Applies root (levels + 1) call → call.Fresh job → (call.outcome job (levels + 1)).LeavesVerdict v →
    job.Earned root (m.insert call.question v)

variable {job : Job} {root : Expr}

/-- A verdict that is found stems from such a call, on a question that counts as the same. -/
theorem Job.Earned.find {m : Memory} {q : Question} {v : Verdict} (h : job.Earned root m) (hv : m.find? q = some v) :
    ∃ levels, ∃ call : Call, job.Applies root (levels + 1) call ∧ call.Fresh job ∧ (q == call.question) = true ∧
      (call.outcome job (levels + 1)).LeavesVerdict v := by
  induction h with
  | empty =>
    rw [Memory.find?_empty] at hv
    cases hv
  | @remembered m levels call w _ happlies hfresh houtcome ih =>
    rw [Memory.find?_insert] at hv
    split at hv
    · next hq =>
      cases hv
      exact ⟨levels, call, happlies, hfresh, hq, houtcome⟩
    · exact ih hv

/-! ## Work that was set aside -/

/-- The question was set aside: a call on it that was worked out is suspended. -/
def Job.SetAside (job : Job) (root : Expr) (q : Question) : Prop :=
  ∃ levels, ∃ call : Call, job.Applies root (levels + 1) call ∧ call.Fresh job ∧ call.question = q ∧
    ∃ suspension, call.outcome job (levels + 1) = .recursion (some suspension)

/-- The other call is worked out, on a question that counts as the same, and comes to the same. So it is with the call itself
if it is worked out, and with one that its verdict is remembered from. -/
structure Call.Repeats (job : Job) (levels : Nat) (call : Call) (levels' : Nat) (worked : Call) : Prop where
  same : (call.question == worked.question) = true
  fresh : worked.Fresh job
  outcome : worked.outcome job levels' = call.outcome job levels

/-- What is remembered for a call was worked out elsewhere in the parse, or it is the verdict of work that was set aside. -/
theorem Job.Earned.repeats {call : Call} (h : job.Earned root call.session.memory) (hnot : ¬ call.Fresh job) (levels : Nat) :
    (∃ q, (call.question == q) = true ∧ job.SetAside root q) ∨
      ∃ levels' worked, job.Applies root (levels' + 1) worked ∧ call.Repeats job (levels + 1) (levels' + 1) worked := by
  obtain ⟨v, s', hv, -, hon⟩ := call.recalls hnot levels
  have ho : call.outcome job (levels + 1) = .settled v := congrArg Prod.fst hon
  obtain ⟨levels', worked, hworked, hfresh, hsame, hleaves⟩ := h.find hv
  cases hw : worked.outcome job (levels' + 1) with
  | settled w =>
    rw [hw] at hleaves
    obtain rfl : w = v := hleaves
    exact .inr ⟨levels', worked, hworked, hsame, hfresh, hw.trans ho.symm⟩
  | recursion suspension =>
    rw [hw] at hleaves
    cases suspension with
    | none => exact hleaves.elim
    | some suspension => exact .inl ⟨_, hsame, levels', worked, hworked, hfresh, rfl, suspension, hw⟩
  | broken error =>
    rw [hw] at hleaves
    exact hleaves.elim

/-- If a verdict is awaited, the question was set aside. -/
def Waiting.Owed (job : Job) (root : Expr) : Waiting → Prop
  | .memory q => job.SetAside root q
  | .sequence _ | .wrapping _ => True

/-- So it is with all suspended work. -/
def Attempt.Owed (job : Job) (root : Expr) : Attempt → Prop
  | .recursion (some suspension) => ∀ work ∈ suspension, work.Owed job root
  | .settled _ | .recursion none | .broken _ => True

/-- So it is with what a loop ends with. -/
def Job.EndsOwed {α : Type} (job : Job) (root : Expr) : Except Attempt α → Prop
  | .ok _ => True
  | .error a => a.Owed job root

/-- The verdict on a question that was set aside may be any. -/
theorem Job.SetAside.earned_insert {q : Question} {m : Memory} {v : Verdict} (h : job.SetAside root q)
    (hm : job.Earned root m) : job.Earned root (m.insert q v) := by
  obtain ⟨levels, call, happlies, hfresh, rfl, suspension, ho⟩ := h
  exact .remembered hm happlies hfresh (by rw [ho]; trivial)

theorem Attempt.Owed.awaiting {q : Question} {a : Attempt} (ha : a.Owed job root)
    (hq : ∀ suspension, a.awaiting job q = .recursion (some suspension) → job.SetAside root q) :
    (a.awaiting job q).Owed job root := by
  rcases a with v | (_ | suspension) | error
  · trivial
  · trivial
  · refine fun work hw => ?_
    split at hw
    · rcases List.mem_append.1 hw with hw | hw
      · exact ha work hw
      · rw [List.mem_singleton.1 hw]
        exact hq _ rfl
    · exact ha work hw
  · trivial

theorem Job.Earned.recording {q : Question} {a : Attempt} {s : Session} (hs : job.Earned root s.memory)
    (hv : ∀ v, a = .settled v → job.Earned root (s.memory.insert q v)) :
    job.Earned root (s.recording job q a).memory := by
  rcases a with v | suspension | error
  · show job.Earned root (if job.options.remember = true then _ else _)
    split
    · exact hv v rfl
    · exact hs
  · exact hs
  · exact hs

theorem wrapAttempt_owed {rule : String} {a : Attempt} (ha : a.Owed job root) : (wrapAttempt job rule a).Owed job root := by
  unfold wrapAttempt
  split
  · split <;> trivial
  · refine fun work hw => ?_
    rcases List.mem_append.1 hw with hw | hw
    · exact ha work hw
    · rw [List.mem_singleton.1 hw]
      trivial
  · exact ha

theorem Run.seeded_owed {run : Run} {a : Attempt} (ha : a.Owed job root) : (run.seeded job a).Owed job root := by
  unfold Run.seeded
  split
  · split
    · split <;> trivial
    · trivial
  · exact ha

/-! ## Procedures -/

/-- Nothing matters to the procedure but calls with `P` where what is remembered is earned. What it comes to has `Q`, and what
is remembered stays earned. -/
structure Procedure.Confined {α : Type} (x : Procedure α) (job : Job) (root : Expr) (P : Call → Prop) (apply : Applier)
    (Q : α → Prop) (s : Session) : Prop where
  same : ∀ other : Applier, (∀ call : Call, P call → job.Earned root call.session.memory →
    (other call.expr call.setting).on call.session = (apply call.expr call.setting).on call.session) →
      (x other).on s = (x apply).on s
  result : Q ((x apply).on s).1
  earned : job.Earned root ((x apply).on s).2.memory

/-- Where what is remembered is earned, the procedure is confined to calls with `P`, or it hinges on another one. -/
def Job.Earning {α : Type} [Breakable α] (job : Job) (root : Expr) (P : Call → Prop) (apply : Applier) (x : Procedure α)
    (Q : α → Prop) : Prop :=
  ∀ s, job.Earned root s.memory → (∃ call, ¬ P call ∧ x.Hinges apply s call) ∨ x.Confined job root P apply Q s

/-- Calls with `P` keep what is remembered earned. -/
def Applier.Earns (apply : Applier) (job : Job) (root : Expr) (P : Call → Prop) : Prop :=
  ∀ call : Call, P call → job.Earned root call.session.memory →
    ((apply call.expr call.setting).on call.session).1.Owed job root ∧
      job.Earned root ((apply call.expr call.setting).on call.session).2.memory

/-- The step keeps what is remembered earned. -/
def Job.Sparing {α : Type} (job : Job) (root : Expr) (x : Eval α) (Q : α → Prop) : Prop :=
  ∀ s, job.Earned root s.memory → Q (x.on s).1 ∧ job.Earned root (x.on s).2.memory

namespace Job.Sparing

variable {α β : Type} {x : Eval α} {f : α → Eval β} {Q : α → Prop} {R : β → Prop}

theorem pure {a : α} (h : Q a) : job.Sparing root (Pure.pure a) Q := fun _ hs => ⟨h, hs⟩

theorem bind (hx : job.Sparing root x Q) (hf : ∀ a, Q a → job.Sparing root (f a) R) : job.Sparing root (x >>= f) R :=
  fun s hs => hf _ (hx s hs).1 _ (hx s hs).2

theorem get : job.Sparing root get fun _ => True := fun _ hs => ⟨trivial, hs⟩

theorem note {entry : Note} : job.Sparing root (Eval.note entry) fun _ => True := fun _ hs => ⟨trivial, hs⟩

theorem count {update : Counts → Counts} : job.Sparing root (Eval.count job update) fun _ => True := by
  intro s hs
  rw [Eval.on_count]
  exact ⟨trivial, by split <;> exact hs⟩

theorem emit {event : Event} : job.Sparing root (Eval.emit job event) fun _ => True := by
  intro s hs
  rw [Eval.on_emit]
  exact ⟨trivial, by split <;> exact hs⟩

theorem reportReentry {name : String} {location : Location} :
    job.Sparing root (Eval.reportReentry job name location) fun _ => True :=
  bind note fun _ _ => bind count fun _ _ => emit

/-- A verdict on a question that was set aside may be remembered. -/
theorem remember {q : Question} {a : Attempt} (hq : job.SetAside root q) (ha : a.Owed job root) :
    job.Sparing root (Eval.remember job q a) (Attempt.Owed job root) := by
  intro s hs
  rw [on_remember]
  exact ⟨ha.awaiting fun _ _ => hq, hs.recording fun _ _ => hq.earned_insert hs⟩

end Job.Sparing

namespace Job.Earning

variable {α β γ : Type} [Breakable α] [Breakable β] {P : Call → Prop} {apply : Applier} {x x' : Procedure α}
  {f : α → Procedure β} {Q : α → Prop} {R : β → Prop}

/-! ## Plumbing -/

theorem pure {a : α} (h : Q a) : job.Earning root P apply (fun _ => Pure.pure a) Q := fun _ hs =>
  .inr ⟨fun _ _ => rfl, h, hs⟩

/-- What follows something that a malformed grammar ends must be ended by it as well. -/
theorem bind (hx : job.Earning root P apply x Q) (hf : ∀ a, Q a → job.Earning root P apply (f a) R)
    (hb : ∀ error other s, ((f (Breakable.broken error) other).on s).1 = Breakable.broken error) :
    job.Earning root P apply (fun apply => x apply >>= fun a => f a apply) R := by
  intro s hs
  rcases hx s hs with ⟨call, hnot, hhinges⟩ | ⟨hsame, hQ, hs'⟩
  · refine .inl ⟨call, hnot, fun error => ?_⟩
    obtain ⟨other, hother, hbroken⟩ := hhinges error
    refine ⟨other, hother, ?_⟩
    rw [Eval.on_bind, hbroken]
    exact hb error other _
  rcases hf _ hQ _ hs' with ⟨call, hnot, hhinges⟩ | ⟨hsame', hR, hs''⟩
  · refine .inl ⟨call, hnot, fun error => ?_⟩
    obtain ⟨other, hother, hbroken⟩ := hhinges error
    refine ⟨other, hother, ?_⟩
    -- the call has not been made before
    rw [Eval.on_bind, hsame other fun made hP _ => hother _ _ _ fun heq => hnot (heq ▸ hP)]
    exact hbroken
  · refine .inr ⟨fun other hother => ?_, hR, hs''⟩
    rw [Eval.on_bind, Eval.on_bind, hsame other hother]
    exact hsame' other hother

theorem behind {k : Eval γ} {f : γ → Procedure α} {Q' : γ → Prop} (hk : job.Sparing root k Q')
    (hf : ∀ c, Q' c → job.Earning root P apply (f c) Q) :
    job.Earning root P apply (fun apply => k >>= fun c => f c apply) Q := by
  intro s hs
  obtain ⟨hQ, hs'⟩ := hk s hs
  exact (hf _ hQ _ hs').imp id fun h => ⟨h.same, h.result, h.earned⟩

theorem step {k : Eval α} (hk : job.Sparing root k Q) : job.Earning root P apply (fun _ => k) Q := fun s hs =>
  .inr ⟨fun _ _ => rfl, (hk s hs).1, (hk s hs).2⟩

theorem ite {c : Prop} [Decidable c] (hx : job.Earning root P apply x Q) (hx' : job.Earning root P apply x' Q) :
    job.Earning root P apply (fun apply => if c then x apply else x' apply) Q := by
  by_cases hc : c
  · simp only [if_pos hc]
    exact hx
  · simp only [if_neg hc]
    exact hx'

/-! ## Sequences -/

section

variable {setting : Setting} {run : Run} {a : Attempt} (h : apply.Earns job root P)
include h

/-- Where an expression is tried, the call has `P`, or all hinges on it. -/
theorem attempt {e : Expr} :
    job.Earning root P apply (fun apply => apply e setting) (Attempt.Owed job root) := by
  classical
  intro s hs
  by_cases hP : P ⟨e, setting, s⟩
  · obtain ⟨howed, hearned⟩ := h _ hP hs
    exact .inr ⟨fun other hother => hother ⟨e, setting, s⟩ hP hs, howed, hearned⟩
  · refine .inl ⟨_, hP, fun error => ?_⟩
    let other : Applier := fun e' setting' t => if (⟨e', setting', t⟩ : Call) = ⟨e, setting, s⟩ then (.broken error, t)
      else apply e' setting' t
    have hother : (other e setting).on s = (.broken error, s) := if_pos rfl
    exact ⟨other, fun e' setting' t hne => if_neg hne, congrArg Prod.fst hother⟩

theorem skipBetween {acc : Accumulator} :
    job.Earning root P apply (fun apply => Packrat.skipBetween job apply setting acc) fun _ => True := by
  unfold Packrat.skipBetween
  cases job.skipper? setting.skipping with
  | none => exact pure trivial
  | some skipper =>
    refine bind (attempt h) (fun a _ => ?_) fun _ _ _ => rfl
    cases a <;> exact pure trivial

theorem absorb (ha : a.Owed job root) :
    job.Earning root P apply (fun apply => run.absorb job apply a) (job.EndsOwed root) := by
  rcases a with (t | why | span | failure) | (_ | suspension) | error
  · exact pure trivial
  · exact pure trivial
  · exact pure trivial
  · refine bind (skipBetween h) (fun r _ => ?_) fun _ _ _ => rfl
    rcases r with error | (_ | acc) <;> exact pure trivial
  · exact pure trivial
  · refine pure fun work hw => ?_
    rcases List.mem_append.1 hw with hw | hw
    · exact ha work hw
    · rw [List.mem_singleton.1 hw]
      trivial
  · exact pure trivial

theorem drive : ∀ {fuel : Nat} {run : Run},
    job.Earning root P apply (fun apply => run.drive job apply fuel) (job.EndsOwed root)
  | 0, _ => pure trivial
  | fuel + 1, run => by
    unfold Run.drive
    cases run.parts[run.done]? with
    | none => exact pure trivial
    | some part =>
      refine behind .get fun s _ => ite (behind .reportReentry fun _ _ => pure fun work hw => ?_) ?_
      · rw [List.mem_singleton.1 hw]
        trivial
      · refine bind (attempt h) (fun a ha => bind (absorb h ha) (fun r hr => ?_) fun _ _ _ => rfl) fun _ _ _ => rfl
        cases r with
        | ok further => exact drive
        | error a => exact pure hr

theorem tail {cursor : Position} :
    job.Earning root P apply (fun apply => run.tail job apply cursor) (Attempt.Owed job root) := by
  refine bind (drive h) (fun r hr => ?_) fun _ _ _ => rfl
  cases r with
  | ok further => exact pure trivial
  | error a => exact pure hr

theorem extend : ∀ {fuel : Nat} {cursor : Position} {tree : Tree},
    job.Earning root P apply (fun apply => run.extend job apply fuel cursor tree) (Attempt.Owed job root)
  | 0, _, _ => pure trivial
  | fuel + 1, cursor, tree => by
    unfold Run.extend
    refine ite (pure trivial) (bind (tail h) (fun a _ => ?_) fun _ _ _ => rfl)
    rcases a with (t | why | span | failure) | suspension | error
    case settled.matched => exact ite (pure trivial) (behind .count fun _ _ => behind .note fun _ _ => extend)
    all_goals exact pure trivial

theorem finish : job.Earning root P apply (fun apply => run.finish job apply) (Attempt.Owed job root) := by
  refine bind (drive h) (fun r hr => ?_) fun _ _ _ => rfl
  cases r with
  | ok further => exact ite (extend h) (pure trivial)
  | error a => exact pure hr

/-! ## Suspended work -/

theorem resume : ∀ {suspension : Suspension} {a : Attempt}, (∀ work ∈ suspension, work.Owed job root) →
    a.Owed job root →
      job.Earning root P apply (fun apply => Suspension.resume job apply suspension a) (Attempt.Owed job root)
  | [], _, _, ha => pure ha
  | work :: others, a, hs, ha => by
    have hothers : ∀ work ∈ others, work.Owed job root := fun work hw => hs work (List.mem_cons_of_mem _ hw)
    have hwork : job.Earning root P apply (fun apply => work.resume job apply a) (Attempt.Owed job root) := by
      cases work with
      | sequence run =>
        have hgiven : (if run.needsSeed then run.seeded job a else a).Owed job root := by
          split
          · exact Run.seeded_owed ha
          · exact ha
        refine bind (absorb h hgiven) (fun r hr => ?_) fun _ _ _ => rfl
        cases r with
        | ok further => exact finish h
        | error a => exact pure hr
      | memory q => exact step (.remember (hs _ List.mem_cons_self) ha)
      | wrapping rule => exact pure (wrapAttempt_owed ha)
    unfold Suspension.resume
    refine bind hwork (fun b hb => ?_) fun _ _ _ => resume_broken
    rcases b with v | (_ | suspension) | error
    case recursion.some => exact pure fun work hw => (List.mem_append.1 hw).elim (hb work) (hothers work)
    all_goals exact resume hothers hb

theorem plantSeed {suspension : Suspension} {seed : Tree} (hs : ∀ work ∈ suspension, work.Owed job root) :
    job.Earning root P apply (fun apply => Packrat.plantSeed job apply suspension seed) (Attempt.Owed job root) := by
  refine behind .note fun _ _ => behind .emit fun _ _ => behind .count fun _ _ => ?_
  refine bind (resume h hs (a := .settled (.matched seed)) trivial) (fun b hb => ?_) fun _ _ _ => rfl
  rcases b with (t | why | span | failure) | suspension | error <;> exact pure trivial

/-! ## Expressions -/

theorem tryChoice : ∀ {alternatives : List Expr} {tried : Tried},
    (∀ suspension, tried.recursion = some (some suspension) → ∀ work ∈ suspension, work.Owed job root) →
      job.Earning root P apply (fun apply => Packrat.tryChoice job apply setting alternatives tried) (Attempt.Owed job root)
  | [], tried, ht => by
    refine pure ?_
    unfold Tried.exhausted
    split
    · trivial
    · next suspension _ hr =>
      cases suspension with
      | none => trivial
      | some suspension => exact ht suspension hr
    · trivial
  | e :: others, tried, ht => by
    unfold Packrat.tryChoice
    refine bind (attempt h) (fun a ha => ?_) fun _ _ _ => rfl
    rcases a with (t | why | span | failure) | suspension | error
    case settled.matched =>
      dsimp only
      split
      · next suspension hr => exact plantSeed h (ht suspension hr)
      · exact pure trivial
    case settled.failed =>
      refine behind .emit fun _ _ => behind .count fun _ _ => tryChoice ?_
      unfold Tried.failed
      split <;> exact ht
    case recursion =>
      refine tryChoice fun suspension hr => ?_
      cases hr
      exact ha
    all_goals exact pure trivial

theorem rounds {body : Expr} {bounds : Bounds} : ∀ {fuel : Nat} {rounds : Rounds},
    job.Earning root P apply (fun apply => rounds.drive job apply body bounds setting fuel) (job.EndsOwed root)
  | 0, _ => pure trivial
  | fuel + 1, r => by
    unfold Rounds.drive
    refine ite (pure trivial) (bind (attempt h) (fun a _ => ?_) fun _ _ _ => rfl)
    rcases a with (t | (_ | _ | _) | span | failure) | suspension | error
    case settled.matched | settled.omitted => exact ite (pure trivial) rounds
    case settled.failed =>
      refine bind (skipBetween h) (fun r _ => ?_) fun _ _ _ => rfl
      rcases r with error | (_ | acc)
      · exact pure trivial
      · exact pure trivial
      · exact rounds
    all_goals exact pure trivial

theorem evaluate (e : Expr) :
    job.Earning root P apply (fun apply => Packrat.evaluate job apply e setting) (Attempt.Owed job root) := by
  cases e with
  | literal | pattern | external => exact pure trivial
  | sequence parts | merge parts => exact finish h
  | choice alternatives => exact tryChoice h nofun
  | repetition body bounds fallback =>
    refine bind (rounds h) (fun r hr => ?_) fun _ _ _ => rfl
    cases r with
    | ok rounds => exact pure trivial
    | error a => exact pure hr
  | ahead body =>
    refine bind (attempt h) (fun a _ => pure ?_) fun _ _ _ => rfl
    cases a with
    | settled v => unfold aheadAttempt; dsimp only; split <;> trivial
    | recursion | broken => trivial
  | notAhead body =>
    refine bind (attempt h) (fun a _ => pure ?_) fun _ _ _ => rfl
    cases a with
    | settled v => unfold notAheadAttempt; dsimp only; split <;> trivial
    | recursion | broken => trivial
  | omission body =>
    refine bind (attempt h) (fun a _ => pure ?_) fun _ _ _ => rfl
    rcases a with (t | (_ | _ | _) | span | failure) | suspension | error <;> trivial
  | rule name =>
    show job.Earning root P apply (fun apply => tryRule job apply name setting) _
    unfold tryRule
    cases job.grammar.rule? name with
    | none => exact pure trivial
    | some body =>
      refine behind .emit fun _ _ => behind .count fun _ _ => bind (attempt h) (fun a ha => ?_) fun _ _ _ => rfl
      exact behind .emit fun _ _ => pure (wrapAttempt_owed ha)

end

end Job.Earning

/-! ## Parses -/

/-- Working a call out is confined to calls of the parse. -/
theorem Job.Applies.confined {levels : Nat} {call : Call} (h : job.Applies root (levels + 1) call) (hfresh : call.Fresh job)
    (hn : call.session.reenters call.expr call.setting.location = false) (hs : job.Earned root call.session.memory)
    (hearns : (applyWithin job levels).Earns job root (job.Applies root levels)) :
    Procedure.Confined (fun apply => evaluate job apply call.expr call.setting) job root (job.Applies root levels)
      (applyWithin job levels) (Attempt.Owed job root) (call.within job) :=
  (Earning.evaluate hearns call.expr (call.within job) hs).resolve_left fun ⟨_, hnot, hhinges⟩ =>
    hnot (.inner h (hinges_remembering hfresh hn hhinges).calls)

/-- The calls of a parse keep what is remembered earned. -/
theorem applyWithin_earns (levels : Nat) : (applyWithin job levels).Earns job root (job.Applies root levels) := by
  induction levels with
  | zero => exact fun call _ hs => ⟨trivial, hs⟩
  | succ levels ih =>
    intro call h hs
    by_cases hfresh : call.Fresh job
    · by_cases hre : call.session.reenters call.expr call.setting.location = true
      · obtain ⟨s', hmemory, -, hon⟩ := on_remembering_of_reenters hfresh hre
        rw [applyWithin, hon, hmemory]
        exact ⟨trivial, hs⟩
      · have hn := Bool.eq_false_iff.2 hre
        have hconfined := h.confined hfresh hn hs ih
        have hon := @on_remembering job (evaluate job (applyWithin job levels)) _ _ _ hfresh hn _ _ rfl
        have ho : call.outcome job (levels + 1) = _ := congrArg Prod.fst hon
        rw [applyWithin, hon]
        refine ⟨hconfined.result.awaiting fun suspension ha => ?_, ?_⟩
        · exact ⟨levels, call, h, hfresh, rfl, suspension, ho.trans ha⟩
        · exact hconfined.earned.recording fun v ha => .remembered hconfined.earned h hfresh (by rw [ho, ha]; rfl)
    · obtain ⟨v, s', -, hmemory, hon⟩ := call.recalls hfresh levels
      rw [hon, hmemory]
      exact ⟨trivial, hs⟩

/-- Whatever is remembered where an expression is tried in the course of a parse was earned. -/
theorem Job.Applies.earned {levels : Nat} {call : Call} (h : job.Applies root levels call) :
    job.Earned root call.session.memory := by
  induction h with
  | root => exact .empty
  | @inner levels call next hcall hcalls ih =>
    obtain ⟨hfresh, hn, other, hsame, hne⟩ := calls_evaluate hcalls
    by_contra hnot
    -- the call is not among those that matter
    exact hne ((hcall.confined hfresh hn ih (applyWithin_earns levels)).same other fun made _ hmade =>
      hsame _ _ _ fun heq => hnot (heq ▸ hmade))

/-! ## Calls that matter -/

/-- Tries expressions like `applyWithin`, but some calls find the grammar malformed. -/
def spoiledWithin (job : Job) (spoils : Nat → Call → Bool) : (levels : Nat) → Applier
  | 0, e, setting => do
    if spoils 0 ⟨e, setting, ← get⟩ then return .broken (.unknownRule "")
    else return .failure (.tooDeep job.options.depthLimit) setting.location
  | levels + 1, e, setting => do
    if spoils (levels + 1) ⟨e, setting, ← get⟩ then return .broken (.unknownRule "")
    else remembering job (evaluate job (spoiledWithin job spoils levels)) e setting

/-- If something else comes of a call then, it makes one of those that find the grammar malformed. -/
theorem Job.Applies.exists_spoiled {spoils : Nat → Call → Bool} {levels : Nat} {call : Call}
    (h : job.Applies root levels call) (hne : (spoiledWithin job spoils levels call.expr call.setting).on call.session ≠
      (applyWithin job levels call.expr call.setting).on call.session) :
    ∃ levels call, job.Applies root levels call ∧ spoils levels call = true := by
  induction levels generalizing call with
  | zero =>
    by_cases hs : spoils 0 call = true
    · exact ⟨0, call, h, hs⟩
    · refine absurd ?_ hne
      show Eval.on (if spoils 0 call = true then _ else _) call.session = _
      rw [if_neg hs]
      rfl
  | succ levels ih =>
    by_cases hs : spoils (levels + 1) call = true
    · exact ⟨levels + 1, call, h, hs⟩
    have hon : (spoiledWithin job spoils (levels + 1) call.expr call.setting).on call.session =
        (remembering job (evaluate job (spoiledWithin job spoils levels)) call.expr call.setting).on call.session := by
      show Eval.on (if spoils (levels + 1) call = true then _ else _) call.session = _
      rw [if_neg hs]
    rw [hon, applyWithin] at hne
    obtain ⟨hfresh, hn, hne⟩ := of_remembering_ne hne
    by_contra hnone
    refine hne ((h.confined hfresh hn h.earned (applyWithin_earns levels)).same _ fun next hnext _ => ?_)
    by_contra hdiffer
    exact hnone (ih hnext hdiffer)

/-- A call that the outcome of a parse depends on is made in its course. -/
theorem Job.exists_applies (job : Job) (root : Expr) (spoils : Nat → Call → Bool)
    (hne : ((spoiledWithin job spoils job.options.depthLimit root .start).on .start).1 ≠
      ((apply job root .start).on .start).1) : ∃ levels call, job.Applies root levels call ∧ spoils levels call = true :=
  Job.Applies.exists_spoiled .root fun heq => hne (congrArg Prod.fst heq)

end Packrat

/-
Cycles echo a parse without a memory. Where a cycle is entered, its recursive alternatives are set
aside at their beginning, and a value of another alternative is a seed for the last of them, unless
that is the rule itself, which nothing waits for. The run that goes on from there mirrors one without a
memory; the verdict on the recursive alternative that it comes to is remembered, and right after it the
one on the body.
-/
import Packrat.Proofs.Memory.Recall

namespace Packrat

open Filter Stance

/-- A sequence or merge, set aside at its beginning. -/
def Run.aside (parts : List Expr) (flatten : Bool) (setting : Setting) : Run :=
  { Run.new parts flatten setting 0 with growing := true, needsSeed := true }

/-- With a value for its first part it goes on. -/
def Run.begun (job : Job) (parts : List Expr) (flatten : Bool) (setting : Setting) (seed : Tree) : Run :=
  let run := { Run.aside parts flatten setting with needsSeed := false }
  run.next (run.collect job.input seed) none

/-- Whether the items of list results are collected one by one. -/
def Expr.flattens : Expr → Bool
  | .merge _ => true
  | _ => false

/-- What waits for a seed when a recursive alternative was set aside. -/
def Job.waiting (job : Job) (s : Expr) (parts : List Expr) (setting : Setting) : Suspension :=
  .sequence (.aside parts s.flattens setting) :: if job.options.remember then [.memory (.of s setting)] else []

section

variable {k : Stance} {φ : Prop} {r : Cycle} {s : Expr} {parts rest : List Expr} {setting : Setting} {job : Job}
  {apply : Applier}

theorem evaluate_chain (hc : s.chain? = some parts) :
    evaluate job apply s setting = trySequence job apply parts s.flattens setting := by
  cases s <;> simp only [Expr.chain?, Option.some.injEq, reduceCtorEq] at hc <;> subst hc <;> rfl

/-- A sequence that begins with the rule entered last is set aside. -/
theorem chain_waits {name : String} (hc : s.chain? = some (.rule name :: rest))
    (hm : k.mark = some (name, setting.location))
    (hn : ∀ m, k.memory m → k.job.options.remember = true → m.find? (.of s setting) = none) (levels : Nat) :
    k.Yields φ (applyWithin k.job (levels + 1) s setting)
      (· = .recursion (some (k.job.waiting s (.rule name :: rest) setting))) := by
  have href : s.reference? = none := by cases s <;> first | rfl | cases hc
  refine .remembering (Q := (· = .recursion (some [.sequence (.aside (.rule name :: rest) s.flattens setting)])))
    ?_ ?_ ?_ ?_ ?_
  · intro _ hr m v hmem hv
    cases (hn m hmem hr).symm.trans hv
  · refine .bind .reportReentry fun _ => .pure ?_
    rintro ⟨⟨-, _, rfl, -⟩, -⟩
    cases hc
  · rw [evaluate_chain hc, href]
    unfold trySequence Run.finish Run.fuel Run.drive
    refine .bind (Q := (· = .error (.recursion (some [.sequence (.aside (.rule name :: rest) s.flattens setting)])))) ?_
      fun b => ?_
    · refine .bind_get fun t => .ite (fun _ => .bind .reportReentry fun _ => .pure fun _ => rfl) fun hre => ?_
      refine .void (Alarm.Persists.bind (.applyWithin _ _ _) fun a => .bind (.absorb (.applyWithin _)) fun b => ?_)
        fun hs => hre ⟨rfl, ?_⟩
      · split
        · exact .drive (.applyWithin _)
        · exact .pure
      · have hentered : t.entered = some (name, setting.location) := hs.2.mark.trans hm
        show (t.entered == some (name, setting.location)) = true
        rw [hentered, beq_self_eq_true]
    · cases b with
      | ok run =>
        refine .void (Alarm.Persists.complete (.applyWithin _)) ?_
        rintro ⟨-, ⟨⟩⟩
      | error a => exact .pure fun hb => Except.error.inj hb.2
  · intro _ v m hv
    cases hv
  · rintro - a rfl
    show Attempt.awaiting k.job _ _ = _
    unfold Attempt.awaiting Job.waiting
    cases k.job.options.remember <;> rfl

/-- Without a memory it is set aside as well. -/
theorem chain_tells {name : String} (hc : s.chain? = some (.rule name :: rest)) (levels : Nat) :
    (applyWithin job.forgetful (levels + 1) s setting).Tells (some (name, setting.location))
      (.recursion (some [.sequence (.aside (.rule name :: rest) s.flattens setting)])) :=
  .of_yields fun _ => chain_waits (k := ⟨job.forgetful, .none, _, _, _⟩) hc rfl (fun _ _ hr => Bool.noConfusion hr) levels

/-- The rule entered last is not entered again where it was entered. -/
theorem rule_waits {name : String} (hm : k.mark = some (name, setting.location))
    (hn : ∀ m, k.memory m → k.job.options.remember = true → m.find? (.of (.rule name) setting) = none) (levels : Nat) :
    k.Yields φ (applyWithin k.job (levels + 1) (.rule name) setting) (· = .recursion none) := by
  refine .remembering (Q := fun _ => False) ?_ ?_ ?_ ?_ ?_
  · intro _ hr m v hmem hv
    cases (hn m hmem hr).symm.trans hv
  · exact .bind .reportReentry fun _ => .pure fun _ => rfl
  · exact .void (k.alarm.passage.evaluate (k.alarm.passage.applyWithin levels) _ _) fun hne => hne.2 name rfl hm
  · exact fun _ v m hv => hv.elim
  · exact fun _ a ha => ha.elim

theorem rule_tells {name : String} (levels : Nat) :
    (applyWithin job.forgetful (levels + 1) (.rule name) setting).Tells (some (name, setting.location)) (.recursion none) :=
  .of_yields fun _ => rule_waits (k := ⟨job.forgetful, .none, _, _, _⟩) rfl (fun _ _ hr => Bool.noConfusion hr) levels

/-- A sequence that was set aside goes on with a seed, as the rule around it gives it. -/
theorem resume_aside {name : String} (hin : setting.rule = some name) (seed : Tree) (flatten : Bool) :
    (Run.aside parts flatten setting).resume job apply (.settled (.matched seed)) =
      match job.grammar.produce name seed with
      | .ok t => (Run.begun job parts flatten setting t).finish job apply
      | .error error => return .broken error := by
  unfold Run.resume Run.seeded
  rw [show (Run.aside parts flatten setting).setting.rule = some name from hin]
  simp only
  cases job.grammar.produce name seed with
  | ok t => rfl
  | error error => rfl

variable {cycles : List Cycle} {mode : SkipMode}

/-- Where a recursive alternative of a cycle is tried. -/
structure Cycle.Entered (r : Cycle) (k : Stance) (setting : Setting) (mode : SkipMode) : Prop where
  mark : k.mark = some (r.name, setting.location)
  rule : setting.rule = some r.name
  skipping : setting.skipping = k.job.skippingIn r.name mode
  sits : setting.position.Sits k.job.input
  reached : k.job.grammar.Reaches (.rule r.name, mode)

/-- A value of another alternative, from which the cycle begins. -/
structure Cycle.Seed (r : Cycle) (job : Job) (setting : Setting) (seed : Tree) : Prop where
  lies : seed.Lies (Position.Place job.input)
  stays : seed.extent.stop ≤ setting.location → ∃ e ∈ r.bases, job.Stays e

/-- Entering the rule once more there does not change the way of skipping. -/
theorem Cycle.Entered.skippingIn (he : r.Entered k setting mode) :
    k.job.skippingIn r.name setting.skipping = setting.skipping := by
  rw [he.skipping]
  exact Grammar.modeIn_modeIn

theorem Cycle.Entered.reaches_body (he : r.Entered k setting mode) (hj : k.job.Steady cycles) (hr : r ∈ cycles) :
    k.job.grammar.Reaches (r.body, setting.skipping) := by
  rw [he.skipping]
  exact he.reached.tail (.body (hj.closed r hr).body)

/-- A recursive alternative that has begun goes on with parts that do not come back to the rule. -/
theorem Cycle.Entered.begun (he : r.Entered k setting mode) (hj : k.job.Steady cycles) (hr : r ∈ cycles)
    (hs : s ∈ r.steps) (hc : s.chain? = some (.rule r.name :: rest)) {seed : Tree} (hseed : r.Seed k.job setting seed) :
    (Run.begun k.job (.rule r.name :: rest) s.flattens setting seed).Fair k.job cycles [k.mark, k.mark] := by
  have hrun : (Run.begun k.job (.rule r.name :: rest) s.flattens setting seed).parts.drop 1 = rest := rfl
  have hquiet : k.job.Quiet k.mark (.sequence rest)
      (Run.begun k.job (.rule r.name :: rest) s.flattens setting seed).here := by
    rw [he.mark]
    rintro _ _ ⟨⟩
    refine ⟨@Run.le_cursor_collect k.job.input { Run.aside _ s.flattens setting with needsSeed := false } seed,
      fun heq => ?_⟩
    -- nothing was taken, so the seed took nothing
    have hstop : seed.extent.stop ≤ setting.location := by
      rw [heq]
      exact Run.stop_le_cursor_collect seed
    have hrest := (hj.closed r hr).rest (hseed.stays hstop) mode he.reached s hs rest hc
    rwa [← he.skipping] at hrest
  refine ⟨fun part hp => .rest hr hs hc hp, ⟨s, hc, ?_⟩, ?_,
    List.forall_mem_cons.2 ⟨hquiet, List.forall_mem_singleton.2 hquiet⟩⟩
  · exact (he.reaches_body hj hr).tail (.part (List.mem_append_left _ hs))
  · exact Run.stands_collect (Accumulator.stands_new he.sits) hseed.lies

/-- Resuming a recursive alternative with a seed mirrors doing so without a memory. -/
theorem Cycle.Entered.resume_mirrors (he : r.Entered k setting mode) (hj : k.job.Steady cycles) (hr : r ∈ cycles)
    (h : k.Echoes cycles apply) (hs : s ∈ r.steps) (hc : s.chain? = some (.rule r.name :: rest)) {seed : Tree} :
    k.Mirrors (r.Seed k.job setting seed)
      ((Run.aside (.rule r.name :: rest) s.flattens setting).resume k.job apply (.settled (.matched seed))) k.mark
      (fun n => (Run.aside (.rule r.name :: rest) s.flattens setting).resume k.job.forgetful
        (applyWithin k.job.forgetful n) (.settled (.matched seed))) id (Attempt.Definite k.job.input) := by
  simp only [resume_aside he.rule]
  have hsame : k.job.forgetful.grammar.produce r.name seed = k.job.grammar.produce r.name seed := rfl
  rw [hsame]
  cases ht : k.job.grammar.produce r.name seed with
  | error error => exact .pure (fun _ => trivial) rfl
  | ok t =>
    have hextent : t.extent = seed.extent := by
      unfold Tree.extent
      rw [Grammar.place_produce ht]
      rfl
    let run := Run.begun k.job (.rule r.name :: rest) s.flattens setting t
    have hrule : run.setting.rule = some r.name := he.rule
    have hfinish := @finish_mirrors k cycles apply k.mark (some r.name) run h
    rw [Run.under_eq hrule] at hfinish
    refine hfinish.guard fun hseed => ⟨he.begun hj hr hs hc ⟨Grammar.lies_produce ht hseed.lies, ?_⟩, fun _ => rfl⟩
    rw [hextent]
    exact hseed.stays

/-! ## Closing a cycle -/

/-- The memory is in order, or it will be once a verdict on the body is remembered. -/
def Cycle.Closing (r : Cycle) (job : Job) (cycles : List Cycle) (setting : Setting) (a : Attempt) (m : Memory) : Prop :=
  job.Retains cycles m ∨ (∃ v, a = .settled v) ∧ job.options.remember = true ∧
    ∃ before s v, s ∈ r.steps ∧ s ≠ .rule r.name ∧ job.Retains cycles before ∧ m = before.insert (.of s setting) v

theorem Cycle.Closing.of_settled {a b : Attempt} {m : Memory} (h : r.Closing job cycles setting a m)
    (hb : ∃ v, b = .settled v) : r.Closing job cycles setting b m := h.imp_right fun hm => ⟨hb, hm.2⟩

/-- A step leaves a memory of some kind, and with enough levels the steps next to it tell its result. -/
def Stance.Closes (k : Stance) (φ : Prop) (x : Eval Attempt) (y : Nat → Eval Attempt)
    (M : Attempt → Memory → Prop) : Prop :=
  k.Leaves φ x (fun a => a.Definite k.job.input ∧ ∀ᶠ n in atTop, (y n).Tells k.mark a) M

namespace Stance.Closes

variable {α β : Type} {ψ : Prop} {x : Eval Attempt} {y : Nat → Eval Attempt} {M : Attempt → Memory → Prop}

theorem pure {a : Attempt} (h : φ → a.Definite k.job.input) (hm : ∀ m, k.memory m → M a m) :
    k.Closes φ (Pure.pure a) (fun _ => Pure.pure a) M :=
  Leaves.pure (fun hφ => ⟨h hφ, .of_forall fun _ => .pure⟩) fun _ => hm

theorem guard (hx : k.Closes φ x y M) (h : ψ → φ) : k.Closes ψ x y M := Leaves.guard hx h

theorem narrow {memory : Memory → Prop} (hx : k.Closes φ x y M) (hm : ∀ m, memory m → k.memory m) :
    (k.recalling memory).Closes φ x y M := Leaves.narrow hx hm

theorem void (hx : k.alarm.Persists x) (h : ¬ φ) : k.Closes φ x y M := fun s => ⟨hx s, fun hφ => absurd hφ h⟩

/-- The second step closes what the first one, which keeps the memory in order, begins. -/
theorem bind {x : Eval α} {y : Nat → Eval β} {c : α → β} {f : α → Eval Attempt} {g : Nat → β → Eval Attempt}
    {Q : α → Prop} (hx : k.Mirrors φ x k.mark y c Q) (hf : ∀ a, k.Closes (φ ∧ Q a) (f a) (fun n => g n (c a)) M) :
    k.Closes φ (x >>= f) (fun n => y n >>= g n) M := by
  refine Leaves.bind (yields_iff.1 hx) fun a => ?_
  have h : k.Leaves (φ ∧ Q a ∧ ∀ᶠ n in atTop, (y n).Tells k.mark (c a)) (f a) _ M :=
    Leaves.guard (hf a) fun h => ⟨h.1, h.2.1⟩
  refine Leaves.post h fun b hφ hb => ⟨hb.1, ?_⟩
  exact (hφ.2.2.and hb.2).mono fun n hn => hn.1.bind hn.2

/-- What comes of it may be changed in the end. -/
theorem map (hx : k.Closes φ x y M) {f g : Attempt → Eval Attempt} (c : Attempt → Attempt)
    (hf : ∀ a, f a = Pure.pure (c a)) (hg : ∀ a, g a = Pure.pure (c a))
    (hc : φ → ∀ a, a.Definite k.job.input → (c a).Definite k.job.input) (hm : ∀ a m, M a m → M (c a) m) :
    k.Closes φ (x >>= f) (fun n => y n >>= g) M := by
  obtain rfl : f = fun a => Pure.pure (c a) := funext hf
  obtain rfl : g = fun a => Pure.pure (c a) := funext hg
  refine Leaves.bind hx fun a => Leaves.pure (fun h => ⟨hc h.1 a h.2.1, ?_⟩) fun _ => hm a
  exact h.2.2.mono fun n hn => hn.bind .pure

end Stance.Closes

/-- Besides the recursive alternative, only the verdict on it waits. -/
theorem rest_closes {a : Attempt} (hs : s ∈ r.steps) (hne : s ≠ .rule r.name) (hk : ∀ m, k.memory m → k.job.Retains cycles m)
    (ha : ∀ suspension, a ≠ .recursion (some suspension)) :
    k.Leaves φ (Suspension.resume k.job apply (if k.job.options.remember then [.memory (.of s setting)] else []) a)
      (· = a) (r.Closing k.job cycles setting) := by
  cases hr : k.job.options.remember with
  | false => exact .pure (fun _ => rfl) fun _ m hm => .inl (hk m hm)
  | true =>
    have hawaiting : a.awaiting k.job (.of s setting) = a := by
      unfold Attempt.awaiting
      split
      · exact absurd rfl (ha _)
      · rfl
    rw [if_pos rfl, Suspension.resume]
    refine Leaves.bind (Q := (· = a)) (M := fun _ => r.Closing k.job cycles setting a)
      (Yields.remember_leaves ?_ ?_ fun _ => hawaiting) fun b => ?_
    · rintro - - v m rfl hm
      exact .inr ⟨⟨v, rfl⟩, hr, m, s, v, hs, hne, hk m hm, rfl⟩
    · rintro - - m hm
      exact .inl (hk m hm)
    · by_cases hb : b = a
      · subst hb
        split
        · exact absurd rfl (ha _)
        · exact .pure (fun _ => rfl) fun _ _ => id
      · refine fun t => ⟨?_, fun hφ => absurd hφ.2 hb⟩
        split
        · exact id
        · exact id

/-- Resuming what waits with a seed. -/
theorem Cycle.Entered.resume_closes (he : r.Entered k setting mode) (hj : k.job.Steady cycles) (hr : r ∈ cycles)
    (hk : ∀ m, k.memory m → k.job.Retains cycles m) (h : k.Echoes cycles apply) (hs : s ∈ r.steps)
    (hc : s.chain? = some (.rule r.name :: rest)) {seed : Tree} :
    k.Closes (r.Seed k.job setting seed)
      (Suspension.resume k.job apply (k.job.waiting s (.rule r.name :: rest) setting) (.settled (.matched seed)))
      (fun n => Suspension.resume k.job.forgetful (applyWithin k.job.forgetful n)
        (k.job.forgetful.waiting s (.rule r.name :: rest) setting) (.settled (.matched seed)))
      (r.Closing k.job cycles setting) := by
  have hne : s ≠ .rule r.name := by
    rintro rfl
    cases hc
  unfold Job.waiting
  simp only [Suspension.resume, Waiting.resume]
  refine .bind (he.resume_mirrors hj hr h hs hc) fun a => ?_
  have go (ha : ∀ suspension, a ≠ .recursion (some suspension)) : k.Closes
      (r.Seed k.job setting seed ∧ a.Definite k.job.input)
      (Suspension.resume k.job apply (if k.job.options.remember then [.memory (.of s setting)] else []) a)
      (fun _ => pure a) (r.Closing k.job cycles setting) :=
    Leaves.post (rest_closes hs hne hk ha) fun b hφ hb => ⟨hb ▸ hφ.2, .of_forall fun _ => hb ▸ .pure⟩
  rcases a with v | suspension | error
  · exact go (by rintro _ ⟨⟩)
  · cases suspension with
    | none => exact .guard (go (by rintro _ ⟨⟩)) id
    | some suspension => exact .void .pure fun hf => hf.2
  · exact go (by rintro _ ⟨⟩)

/-- What a seed comes to: where nothing comes of the work that waits for it, it stands. -/
def Attempt.orSeed (seed : Tree) : Attempt → Attempt
  | .settled (.failed _) | .recursion _ => .settled (.matched seed)
  | attempt => attempt

/-- A seed closes the cycle. -/
theorem Cycle.Entered.plantSeed_closes (he : r.Entered k setting mode) (hj : k.job.Steady cycles) (hr : r ∈ cycles)
    (hk : ∀ m, k.memory m → k.job.Retains cycles m) (h : k.Echoes cycles apply) (hs : s ∈ r.steps)
    (hc : s.chain? = some (.rule r.name :: rest)) {seed : Tree} :
    k.Closes (r.Seed k.job setting seed)
      (plantSeed k.job apply (k.job.waiting s (.rule r.name :: rest) setting) seed)
      (fun n => plantSeed k.job.forgetful (applyWithin k.job.forgetful n)
        (k.job.forgetful.waiting s (.rule r.name :: rest) setting) seed)
      (r.Closing k.job cycles setting) := by
  refine .bind .note fun _ => .bind .emit fun _ => .bind (.count (fun _ => Nat.le_refl _) fun _ => Nat.le_refl _) fun _ => ?_
  refine .map ((he.resume_closes hj hr hk h hs hc).guard fun hseed => hseed.1.1.1) (Attempt.orSeed seed) ?_ ?_ ?_ ?_
  · rintro ((_ | _ | _ | _) | _ | _) <;> rfl
  · rintro ((_ | _ | _ | _) | _ | _) <;> rfl
  · rintro hseed ((_ | _ | _ | _) | _ | _) ha
    case settled.failed => exact hseed.1.1.1.lies
    case recursion => exact ha.elim
    all_goals exact ha
  · rintro ((_ | _ | _ | _) | _ | _) m hm
    case settled.failed | recursion => exact hm.of_settled ⟨_, rfl⟩
    all_goals exact hm

/-- One more failure is kept in mind in the same way, whatever waits. -/
theorem Tried.failed_eq (furthest : Option Failure) (failure : Failure) : ∃ latest, ∀ recursion,
    (⟨furthest, recursion⟩ : Tried).failed failure = ⟨some latest, recursion⟩ := by
  unfold Tried.failed
  cases furthest with
  | none => exact ⟨failure, fun _ => rfl⟩
  | some before =>
    cases hb : failure.reaches before with
    | true => exact ⟨failure, fun _ => by simp [hb]⟩
    | false => exact ⟨before, fun _ => by simp [hb]⟩

/-- What comes of a seed, whether there is work that waits for it or not. -/
def sow (job : Job) (apply : Applier) (seed : Tree) : Option Suspension → Eval Attempt
  | some suspension => plantSeed job apply suspension seed
  | none => return .settled (.matched seed)

/-- The other alternatives of a cycle close it, if seeds do. -/
theorem Cycle.Entered.bases_close (he : r.Entered k setting mode) (hj : k.job.Steady cycles) (hr : r ∈ cycles)
    (hk : ∀ m, k.memory m → k.job.Retains cycles m) (h : k.Echoes cycles apply) {waiting waiting' : Option Suspension}
    (hseed : ∀ seed, k.Closes (r.Seed k.job setting seed) (sow k.job apply seed waiting)
      (fun n => sow k.job.forgetful (applyWithin k.job.forgetful n) seed waiting') (r.Closing k.job cycles setting)) :
    ∀ {bases : List Expr} {furthest : Option Failure}, (∀ e ∈ bases, e ∈ r.bases) → (bases = [] → furthest ≠ none) →
      k.Closes True (tryChoice k.job apply setting bases ⟨furthest, some waiting⟩)
        (fun n => tryChoice k.job.forgetful (applyWithin k.job.forgetful n) setting bases ⟨furthest, some waiting'⟩)
        (r.Closing k.job cycles setting) := by
  intro bases
  induction bases with
  | nil =>
    intro furthest _ hf
    cases furthest with
    | none => exact absurd rfl (hf rfl)
    | some failure => exact .pure (fun _ => trivial) fun _ hm => .inl (hk _ hm)
  | cons e others ih =>
    intro furthest hbases _
    have hbase := hbases e List.mem_cons_self
    have hquiet : k.job.Quiet k.mark e setting := by
      rw [he.mark]
      refine .entered ?_
      rw [he.skipping]
      exact (hj.closed r hr).bases mode he.reached e hbase
    have hfair : k.job.Fair cycles [k.mark, k.mark] e setting :=
      ⟨.base hr hbase, (he.reaches_body hj hr).tail (.part (List.mem_append_right _ hbase)), he.sits,
        List.forall_mem_cons.2 ⟨hquiet, List.forall_mem_singleton.2 hquiet⟩⟩
    have htried := @Stance.Echoes.mirrors _ _ _ k.mark (some r.name) e setting h
    rw [Setting.under_eq he.rule] at htried
    unfold tryChoice
    refine .bind (htried.guard fun _ => hfair) fun a => ?_
    rcases a with (t | why | span | failure) | suspension | error
    · -- a value that took nothing shows that the alternative stays
      have hclose := (hseed t).guard fun ht : True ∧ _ ∧ (_ → k.job.Stays e) =>
        ⟨ht.2.1, fun hle => ⟨e, hbase, ht.2.2 hle⟩⟩
      cases waiting <;> cases waiting' <;> exact hclose
    · exact .pure (fun ha => ha.2.1) fun _ hm => .inl (hk _ hm)
    · exact .pure (fun ha => ha.2.1) fun _ hm => .inl (hk _ hm)
    · obtain ⟨latest, hlatest⟩ := Tried.failed_eq furthest failure
      refine .bind .emit fun _ => .bind (.count (fun _ => Nat.le_refl _) fun _ => Nat.le_refl _) fun _ => ?_
      simp only [hlatest]
      exact .guard (ih (fun e hm => hbases e (List.mem_cons_of_mem _ hm)) fun _ => Option.some_ne_none _) fun _ => trivial
    · refine .void ?_ fun ha => ha.2.1
      exact .tryChoice h.persists
    · exact .pure (fun _ => trivial) fun _ hm => .inl (hk _ hm)

/-- What was set aside when a recursive alternative was tried. Nothing is if it is the rule itself. -/
def Job.waiting? (job : Job) (s : Expr) (setting : Setting) : Option Suspension :=
  s.chain?.map (job.waiting s · setting)

/-- A seed closes the cycle, whichever recursive alternative it is for. -/
theorem Cycle.Entered.sow_closes (he : r.Entered k setting mode) (hj : k.job.Steady cycles) (hr : r ∈ cycles)
    (hk : ∀ m, k.memory m → k.job.Retains cycles m) (h : k.Echoes cycles apply) (hs : s ∈ r.steps) (seed : Tree) :
    k.Closes (r.Seed k.job setting seed) (sow k.job apply seed (k.job.waiting? s setting))
      (fun n => sow k.job.forgetful (applyWithin k.job.forgetful n) seed (k.job.forgetful.waiting? s setting))
      (r.Closing k.job cycles setting) := by
  unfold Job.waiting?
  rcases (hj.closed r hr).steps s hs with rfl | ⟨rest, hc⟩
  · exact .pure (fun hseed => hseed.lies) fun _ hm => .inl (hk _ hm)
  · rw [hc]
    exact he.plantSeed_closes hj hr hk h hs hc

/-- A recursive alternative is set aside, with a memory or without. -/
theorem Cycle.Entered.step_mirrors (he : r.Entered k setting mode) (hj : k.job.Steady cycles) (hr : r ∈ cycles)
    (hk : ∀ m, k.memory m → k.job.Retains cycles m) (hs : s ∈ r.steps) (levels : Nat) :
    (k.asking (.of r.body setting)).Mirrors True (applyWithin k.job (levels + 1) s setting) k.mark
      (fun n => applyWithin k.job.forgetful n s setting) (fun _ => .recursion (k.job.forgetful.waiting? s setting))
      (· = .recursion (k.job.waiting? s setting)) := by
  have hnone : ∀ m, (k.asking (.of r.body setting)).memory m → k.job.options.remember = true →
      m.find? (.of s setting) = none := fun m hm hrem => (hk m hm.1).find_step hr hs he.skippingIn (hm.2 hrem)
  have hstep : (k.asking (.of r.body setting)).Yields True (applyWithin k.job (levels + 1) s setting)
        (· = .recursion (k.job.waiting? s setting)) ∧
      ∀ n, (applyWithin k.job.forgetful (n + 1) s setting).Tells k.mark (.recursion (k.job.forgetful.waiting? s setting)) := by
    unfold Job.waiting?
    rw [he.mark]
    rcases (hj.closed r hr).steps s hs with rfl | ⟨rest, hc⟩
    · exact ⟨rule_waits (k := k.asking (.of r.body setting)) he.mark hnone levels, rule_tells⟩
    · rw [hc]
      exact ⟨chain_waits (k := k.asking (.of r.body setting)) hc he.mark hnone levels, chain_tells hc⟩
  refine hstep.1.post fun a _ ha => ⟨ha, (eventually_ge_atTop 1).mono fun n hn => ?_⟩
  obtain ⟨n, rfl⟩ := Nat.exists_eq_add_of_le' hn
  exact hstep.2 n

/-- The recursive alternatives are set aside, the last of them to be closed by the others. -/
theorem Cycle.Entered.steps_close (he : r.Entered k setting mode) (hj : k.job.Steady cycles) (hr : r ∈ cycles)
    (hk : ∀ m, k.memory m → k.job.Retains cycles m) {levels : Nat}
    (h : k.Echoes cycles (applyWithin k.job (levels + 1))) :
    ∀ {steps : List Expr} {before before' : Option (Option Suspension)}, steps ≠ [] → (∀ s ∈ steps, s ∈ r.steps) →
      (k.asking (.of r.body setting)).Closes True
        (tryChoice k.job (applyWithin k.job (levels + 1)) setting (steps ++ r.bases) ⟨none, before⟩)
        (fun n => tryChoice k.job.forgetful (applyWithin k.job.forgetful n) setting (steps ++ r.bases) ⟨none, before'⟩)
        (r.Closing k.job cycles setting) := by
  -- each recursive alternative takes the place of the one before, so only the last is ever resumed
  intro steps
  induction steps with
  | nil => exact fun hne => absurd rfl hne
  | cons s others ih =>
    intro before before' _ hsteps
    have hs := hsteps s List.mem_cons_self
    rw [List.cons_append]
    unfold tryChoice
    refine .bind (he.step_mirrors hj hr hk hs levels) fun a => ?_
    by_cases ha : a = .recursion (k.job.waiting? s setting)
    · subst ha
      cases others with
      | nil =>
        have hne : r.bases = [] → (none : Option Failure) ≠ none := fun hn => absurd hn (hj.closed r hr).grounded
        have hbases := he.bases_close hj hr hk h (he.sow_closes hj hr hk h hs) (fun _ => id) hne
        exact .guard (hbases.narrow fun _ => And.left) fun _ => trivial
      | cons s' others =>
        exact .guard (ih (List.cons_ne_nil _ _) fun s' hm => hsteps s' (List.mem_cons_of_mem _ hm)) fun _ => trivial
    · refine .void ?_ fun hq => ha hq.2
      split
      · split
        · exact .plantSeed (.applyWithin _)
        · exact .pure
      · exact .bind .emit fun _ => .bind (.count (fun _ => Nat.le_refl _) fun _ => Nat.le_refl _) fun _ =>
          .tryChoice (.applyWithin _)
      · exact .tryChoice (.applyWithin _)
      · exact .pure

end

end Packrat

/-
A logic for steps of a parse. A stance says what a session is like where a step begins: what holds
of the remembered verdicts, which rule was entered last and how deep the nesting is. A step yields
`Q` under a guard when, taken in such a session and with the guard true, it has a result with `Q` and
the session is of the same kind afterwards. An alarm lifts all of this: once the counts have rung it,
nothing more is promised than that it stays rung. That is how a statement about parses that stay
clear of the depth limit is carried through their steps. Where what is remembered is out of order for
a while, a step is said to leave a memory of another kind.
-/
import Packrat.Parse.Apply

namespace Packrat

/-- The rule entered last and where it was entered. -/
abbrev Mark := Option (String × Location)

/-- The mark under which an expression is worked out at a location: its own if it is a reference. -/
def Mark.inside (m : Mark) (rule : Option String) (location : Location) : Mark :=
  (rule.map (·, location)).or m

/-! ## Steps -/

/-- The result of a step and the session after it. -/
def Eval.on {α : Type} (x : Eval α) (s : Session) : α × Session := x.run s

namespace Eval

variable {α β : Type}

@[simp] theorem on_pure (a : α) (s : Session) : Eval.on (pure a) s = (a, s) := rfl

theorem on_bind (x : Eval α) (f : α → Eval β) (s : Session) :
    Eval.on (x >>= f) s = Eval.on (f (Eval.on x s).1) (Eval.on x s).2 := rfl

@[simp] theorem on_get (s : Session) : Eval.on get s = (s, s) := rfl

@[simp] theorem on_modify (f : Session → Session) (s : Session) : Eval.on (modify f) s = ((), f s) := rfl

@[simp] theorem on_note (entry : Note) (s : Session) :
    Eval.on (note entry) s = ((), { s with journal := s.journal.push entry }) := rfl

theorem on_count (job : Job) (update : Counts → Counts) (s : Session) :
    Eval.on (count job update) s =
      ((), if job.options.counting then { s with counts := update s.counts } else s) := rfl

theorem on_emit (job : Job) (event : Event) (s : Session) :
    Eval.on (emit job event) s =
      ((), if job.options.tracing then { s with events := s.events.push event } else s) := rfl

end Eval

/-! ## Alarms and stances -/

/-- Counts that void what is promised of a parse. They are told from the depth that was reached and
from the number of rules that came back to themselves. -/
structure Alarm where
  rung : Counts → Prop
  kept : ∀ {a b : Counts}, a.deepest ≤ b.deepest → a.reentries ≤ b.reentries → rung a → rung b

/-- The alarm that never rings. -/
def Alarm.none : Alarm := ⟨fun _ => False, fun _ _ h => h⟩

/-- What a session is like where a step begins. -/
structure Stance where
  job : Job
  alarm : Alarm
  memory : Memory → Prop
  mark : Mark
  depth : Nat

/-- What becomes of an attempt whose verdict is to be remembered: a suspension takes over. -/
def Attempt.awaiting (job : Job) (q : Question) : Attempt → Attempt
  | .recursion (some suspension) =>
    .recursion (some (if job.options.remember then suspension ++ [.memory q] else suspension))
  | attempt => attempt

/-- A suspension that takes over is the one before, or it waits for the verdict as well. -/
theorem Attempt.awaiting_eq_recursion {job : Job} {q : Question} {a : Attempt} {suspension : Suspension}
    (h : a.awaiting job q = .recursion (some suspension)) : ∃ before, a = .recursion (some before) ∧
      (suspension = before ∨ suspension = before ++ [.memory q]) := by
  unfold awaiting at h
  split at h
  · next before =>
    cases h
    refine ⟨before, rfl, ?_⟩
    split
    · exact .inr rfl
    · exact .inl rfl
  · exact ⟨suspension, h, .inl rfl⟩

theorem Attempt.awaiting_eq_settled {job : Job} {q : Question} {a : Attempt} {v : Verdict}
    (h : a.awaiting job q = .settled v) : a = .settled v := by
  unfold awaiting at h
  split at h
  · cases h
  · exact h

theorem Attempt.awaiting_eq_broken {job : Job} {q : Question} {a : Attempt} {error : GrammarError}
    (h : a.awaiting job q = .broken error) : a = .broken error := by
  unfold awaiting at h
  split at h
  · cases h
  · exact h

/-- What an attempt matched. -/
def Attempt.tree? : Attempt → Option Tree
  | .settled (.matched t) => some t
  | _ => none

theorem Attempt.tree?_eq_some {a : Attempt} {t : Tree} (h : a.tree? = some t) : a = .settled (.matched t) := by
  unfold tree? at h
  split at h
  · cases h
    rfl
  · cases h

/-- Why nothing came of an attempt that holds. -/
def Attempt.silence? : Attempt → Option Silence
  | .settled (.silent why) => some why
  | _ => none

theorem Attempt.silence?_eq_some {a : Attempt} {why : Silence} (h : a.silence? = some why) : a = .settled (.silent why) := by
  unfold silence? at h
  split at h
  · cases h
    rfl
  · cases h

namespace Stance

/-- The stance one level deeper, and under the mark of a rule if there is one. -/
def inside (k : Stance) (rule : Option String) (location : Location) : Stance :=
  { k with mark := Mark.inside k.mark rule location, depth := k.depth + 1 }

/-- A session as the stance says. -/
structure Fits (k : Stance) (s : Session) : Prop where
  memory : k.memory s.memory
  mark : s.entered = k.mark
  depth : s.depth = k.depth
  /-- Depths are counted, if anything is. -/
  deepest : k.job.options.counting = true → s.depth ≤ s.counts.deepest

/-- Taken in a session of the stance with the guard true, the step has a result with `Q` and leaves
a session of the stance. -/
def Yields {α : Type} (k : Stance) (φ : Prop) (x : Eval α) (Q : α → Prop) : Prop :=
  ∀ s, (k.alarm.rung s.counts → k.alarm.rung (x.on s).2.counts) ∧
    (φ → k.Fits s → k.alarm.rung (x.on s).2.counts ∨ Q (x.on s).1 ∧ k.Fits (x.on s).2)

/-- The stance with something else known of the memory. -/
def recalling (k : Stance) (memory : Memory → Prop) : Stance := { k with memory }

/-- As `Yields`, but what holds of the memory afterwards depends on the result. -/
def Leaves {α : Type} (k : Stance) (φ : Prop) (x : Eval α) (Q : α → Prop) (M : α → Memory → Prop) : Prop :=
  ∀ s, (k.alarm.rung s.counts → k.alarm.rung (x.on s).2.counts) ∧
    (φ → k.Fits s → k.alarm.rung (x.on s).2.counts ∨ Q (x.on s).1 ∧ (k.recalling (M (x.on s).1)).Fits (x.on s).2)

/-- The stance in which the answer to a question is not remembered. -/
def asking (k : Stance) (q : Question) : Stance :=
  k.recalling fun m => k.memory m ∧ (k.job.options.remember = true → m.find? q = none)

section

variable {α β : Type} {k : Stance} {φ ψ : Prop} {x : Eval α} {Q R : α → Prop} {M : α → Memory → Prop}

theorem Fits.recall {s : Session} {memory : Memory → Prop} (h : k.Fits s) (hm : memory s.memory) :
    (k.recalling memory).Fits s := ⟨hm, h.mark, h.depth, h.deepest⟩

theorem yields_iff : k.Yields φ x Q ↔ k.Leaves φ x Q fun _ => k.memory := Iff.rfl

theorem Yields.leaves (hx : k.Yields φ x Q) (hm : ∀ a m, Q a → k.memory m → M a m) : k.Leaves φ x Q M := fun s =>
  ⟨(hx s).1, fun hφ hs => ((hx s).2 hφ hs).imp_right fun ⟨hQ, hs'⟩ => ⟨hQ, hs'.recall (hm _ _ hQ hs'.memory)⟩⟩

/-- What is known of the memory after the step, wherever it is taken, may be added. -/
theorem Yields.leaves_on (hx : k.Yields φ x Q) (hm : ∀ s, M (x.on s).1 (x.on s).2.memory) :
    k.Leaves φ x Q fun a m => k.memory m ∧ M a m := fun s =>
  ⟨(hx s).1, fun hφ hs => ((hx s).2 hφ hs).imp_right fun ⟨hQ, hs'⟩ => ⟨hQ, hs'.recall ⟨hs'.memory, hm s⟩⟩⟩

theorem Leaves.pure {a : α} (h : φ → Q a) (hm : φ → ∀ m, k.memory m → M a m) : k.Leaves φ (Pure.pure a) Q M := fun _ =>
  ⟨id, fun hφ hs => .inr ⟨h hφ, hs.recall (hm hφ _ hs.memory)⟩⟩

/-- A step in sessions of one stance may be taken in those of a narrower one. -/
theorem Leaves.narrow {memory : Memory → Prop} (hx : k.Leaves φ x Q M) (hm : ∀ m, memory m → k.memory m) :
    (k.recalling memory).Leaves φ x Q M := fun s =>
  ⟨(hx s).1, fun hφ hs => (hx s).2 hφ ⟨hm _ hs.memory, hs.mark, hs.depth, hs.deepest⟩⟩

/-- The second step begins with what the first one leaves. -/
theorem Leaves.bind {f : α → Eval β} {R : β → Prop} {M' : β → Memory → Prop} (hx : k.Leaves φ x Q M)
    (hf : ∀ a, (k.recalling (M a)).Leaves (φ ∧ Q a) (f a) R M') : k.Leaves φ (x >>= f) R M' := by
  intro s
  obtain ⟨hr, hk⟩ := hx s
  obtain ⟨hr', hk'⟩ := hf (x.on s).1 (x.on s).2
  refine ⟨fun h => hr' (hr h), fun hφ hs => ?_⟩
  rcases hk hφ hs with h | ⟨hQ, hs'⟩
  · exact .inl (hr' h)
  · exact hk' ⟨hφ, hQ⟩ hs'

theorem Leaves.bind_get {f : Session → Eval α} (hf : ∀ s, k.Leaves (φ ∧ k.Fits s) (f s) Q M) :
    k.Leaves φ (get >>= f) Q M := fun s =>
  ⟨(hf s s).1, fun hφ hs => (hf s s).2 ⟨hφ, hs⟩ hs⟩

/-- Under an alarm that never rings the guard is a fact. -/
theorem Leaves.given (ha : ∀ c, ¬ k.alarm.rung c) (h : φ → k.Leaves True x Q M) : k.Leaves φ x Q M := fun s =>
  ⟨fun hr => absurd hr (ha _), fun hφ => (h hφ s).2 trivial⟩

/-- Under an alarm that never rings, what the first step leaves is a fact where the second begins. -/
theorem Leaves.next (ha : ∀ c, ¬ k.alarm.rung c) {f : α → Eval β} {R : β → Prop} {M' : β → Memory → Prop}
    (hx : k.Leaves True x Q M) (hf : ∀ a, Q a → (k.recalling (M a)).Leaves True (f a) R M') :
    k.Leaves True (x >>= f) R M' :=
  hx.bind fun a => .given ha fun h => hf a h.2

theorem Leaves.post (hx : k.Leaves φ x Q M) (h : ∀ a, φ → Q a → R a) : k.Leaves φ x R M := fun s =>
  ⟨(hx s).1, fun hφ hs => ((hx s).2 hφ hs).imp_right fun ⟨hQ, hs'⟩ => ⟨h _ hφ hQ, hs'⟩⟩

theorem Leaves.guard (hx : k.Leaves φ x Q M) (h : ψ → φ) : k.Leaves ψ x Q M := fun s =>
  ⟨(hx s).1, fun hψ => (hx s).2 (h hψ)⟩

end

namespace Yields

variable {α β : Type} {k : Stance} {φ ψ : Prop} {x : Eval α} {Q R : α → Prop}

/-! ## Plumbing -/

theorem pure {a : α} (h : φ → Q a) : k.Yields φ (Pure.pure a) Q := fun _ =>
  ⟨id, fun hφ hs => .inr ⟨h hφ, hs⟩⟩

/-- The second step may rely on the guard and on what the first one yields. -/
theorem bind {f : α → Eval β} {R : β → Prop} (hx : k.Yields φ x Q)
    (hf : ∀ a, k.Yields (φ ∧ Q a) (f a) R) : k.Yields φ (x >>= f) R := by
  intro s
  obtain ⟨hr, hk⟩ := hx s
  obtain ⟨hr', hk'⟩ := hf (x.on s).1 (x.on s).2
  refine ⟨fun h => hr' (hr h), fun hφ hs => ?_⟩
  rcases hk hφ hs with h | ⟨hQ, hs'⟩
  · exact .inl (hr' h)
  · exact hk' ⟨hφ, hQ⟩ hs'

theorem post (hx : k.Yields φ x Q) (h : ∀ a, φ → Q a → R a) : k.Yields φ x R := fun s =>
  ⟨(hx s).1, fun hφ hs => ((hx s).2 hφ hs).imp_right fun ⟨hQ, hs'⟩ => ⟨h _ hφ hQ, hs'⟩⟩

theorem guard (hx : k.Yields φ x Q) (h : ψ → φ) : k.Yields ψ x Q := fun s =>
  ⟨(hx s).1, fun hψ => (hx s).2 (h hψ)⟩

theorem ite {c : Prop} [Decidable c] {y : Eval α} (hx : c → k.Yields φ x Q) (hy : ¬ c → k.Yields φ y Q) :
    k.Yields φ (if c then x else y) Q := by
  split
  · next h => exact hx h
  · next h => exact hy h

/-- A step that begins with a look at the session. -/
theorem bind_get {f : Session → Eval α} (hf : ∀ s, k.Yields (φ ∧ k.Fits s) (f s) Q) :
    k.Yields φ (get >>= f) Q := fun s =>
  ⟨(hf s s).1, fun hφ hs => (hf s s).2 ⟨hφ, hs⟩ hs⟩

/-! ## Bookkeeping -/

theorem count {update : Counts → Counts} (hd : ∀ c, c.deepest ≤ (update c).deepest)
    (hr : ∀ c, c.reentries ≤ (update c).reentries) :
    k.Yields φ (Eval.count k.job update) (fun _ => φ) := by
  intro s
  rw [Eval.on_count]
  split
  · next hc =>
    exact ⟨k.alarm.kept (hd _) (hr _), fun hφ hs => .inr ⟨hφ, hs.memory, hs.mark, hs.depth, fun _ =>
      Nat.le_trans (hs.deepest hc) (hd _)⟩⟩
  · exact ⟨id, fun hφ hs => .inr ⟨hφ, hs⟩⟩

theorem emit {event : Event} : k.Yields φ (Eval.emit k.job event) (fun _ => φ) := by
  intro s
  rw [Eval.on_emit]
  split
  · exact ⟨id, fun hφ hs => .inr ⟨hφ, hs.memory, hs.mark, hs.depth, hs.deepest⟩⟩
  · exact ⟨id, fun hφ hs => .inr ⟨hφ, hs⟩⟩

theorem note {entry : Note} : k.Yields φ (Eval.note entry) (fun _ => φ) := fun _ =>
  ⟨id, fun hφ hs => .inr ⟨hφ, hs.memory, hs.mark, hs.depth, hs.deepest⟩⟩

theorem reportReentry {rule : String} {location : Location} :
    k.Yields φ (Eval.reportReentry k.job rule location) (fun _ => φ) :=
  note.bind fun _ => bind (count (fun _ => Nat.le_refl _) fun _ => Nat.le_succ _) fun _ =>
    emit.guard fun h => h.1.1

/-- Where nothing is deeper than the stance without ringing the alarm, nothing has to be shown. -/
theorem too_deep {a : α} (hc : k.job.options.counting = true)
    (h : ∀ c : Counts, k.depth ≤ c.deepest → k.alarm.rung c) : k.Yields φ (Pure.pure a) Q := fun _ =>
  ⟨id, fun _ hs => .inl (h _ (hs.depth ▸ hs.deepest hc))⟩

/-- A rule that comes back to itself rings an alarm that listens for it. -/
theorem reentry_rings {rule : String} {location : Location} {a : α}
    (hc : k.job.options.counting = true) (h : ∀ c : Counts, 0 < c.reentries → k.alarm.rung c) :
    k.Yields φ (Eval.reportReentry k.job rule location >>= fun _ => Pure.pure a) Q := by
  intro s
  have hl : k.Yields φ (Eval.reportReentry k.job rule location) (fun _ => φ) := reportReentry
  refine ⟨(hl s).1, fun _ _ => .inl (h _ ?_)⟩
  show 0 < ((Eval.reportReentry k.job rule location).on s).2.counts.reentries
  simp only [Eval.reportReentry, Eval.on_bind, Eval.on_note, Eval.on_count, hc, if_true, Eval.on_emit]
  split <;> exact Nat.succ_pos _

/-- Where the guard cannot be true, nothing has to be shown but that the alarm stays rung. -/
theorem void (hx : ∀ s, k.alarm.rung s.counts → k.alarm.rung (x.on s).2.counts) (h : ¬ φ) : k.Yields φ x Q :=
  fun s => ⟨hx s, fun hφ => absurd hφ h⟩

theorem given (ha : ∀ c, ¬ k.alarm.rung c) (h : φ → k.Yields True x Q) : k.Yields φ x Q :=
  Leaves.given (M := fun _ => k.memory) ha h

/-- Under an alarm that never rings, what the first step yields is a fact where the second begins. -/
theorem next (ha : ∀ c, ¬ k.alarm.rung c) {f : α → Eval β} {R : β → Prop} (hx : k.Yields True x Q)
    (hf : ∀ a, Q a → k.Yields True (f a) R) : k.Yields True (x >>= f) R :=
  hx.bind fun a => given ha fun h => hf a h.2

theorem next_get (ha : ∀ c, ¬ k.alarm.rung c) {f : Session → Eval α} (hf : ∀ s, k.Fits s → k.Yields True (f s) Q) :
    k.Yields True (get >>= f) Q :=
  bind_get fun s => given ha fun h => hf s h.2

/-! ## Depth and mark -/

/-- Nested work is done one level deeper and under its own mark. -/
theorem nested_leaves {rule : Option String} {location : Location} {work : Eval Attempt} {Q : Attempt → Prop}
    {M : Attempt → Memory → Prop} (h : (k.inside rule location).Leaves φ work Q M) :
    k.Leaves φ (Eval.nested k.job rule location work) Q M := by
  intro s
  let entered : Session := { s with depth := s.depth + 1, entered := Mark.inside s.entered rule location }
  let deeper := (Eval.on (Eval.count k.job fun c => { c with deepest := max c.deepest (s.depth + 1) }) entered).2
  have hdeeper : deeper = if k.job.options.counting then
      { entered with counts := { s.counts with deepest := max s.counts.deepest (s.depth + 1) } } else entered := rfl
  obtain ⟨hr, hk⟩ := h deeper
  refine ⟨fun hs => hr ?_, fun hφ hs => ?_⟩
  · rw [hdeeper]
    split
    · exact k.alarm.kept (Nat.le_max_left _ _) (Nat.le_refl _) hs
    · exact hs
  · have hfits : (k.inside rule location).Fits deeper := by
      rw [hdeeper]
      split
      · exact ⟨hs.memory, congrArg (Mark.inside · rule location) hs.mark, congrArg (· + 1) hs.depth, fun _ =>
          Nat.le_max_right _ _⟩
      · next hc =>
        exact ⟨hs.memory, congrArg (Mark.inside · rule location) hs.mark, congrArg (· + 1) hs.depth, fun h =>
          absurd h hc⟩
    rcases hk hφ hfits with h | ⟨hQ, hf⟩
    · exact .inl h
    refine .inr ⟨hQ, hf.memory, ?_, ?_, fun hc => ?_⟩
    · show (if rule.isSome then s.entered else (work.on deeper).2.entered) = k.mark
      cases rule with
      | none => exact hf.mark
      | some rule => exact hs.mark
    · show (work.on deeper).2.depth - 1 = k.depth
      rw [hf.depth]
      rfl
    · exact Nat.le_trans (Nat.sub_le _ 1) (hf.deepest hc)

/-! ## Memory -/

/-- A question is looked up: what is found is remembered, and what is not found is not. -/
theorem lookUp {q : Question} : k.Leaves φ (Eval.lookUp k.job q)
    (fun found => ∀ v, found = some v → k.job.options.remember = true ∧ ∃ m, k.memory m ∧ m.find? q = some v)
    fun found m => k.memory m ∧ (found = none → k.job.options.remember = true → m.find? q = none) := by
  intro s
  unfold Eval.lookUp
  split
  · next hr =>
    rw [Eval.on_bind, Eval.on_get]
    cases hf : s.memory.find? q with
    | some v =>
      have hl : k.Yields (φ ∧ k.Fits s) (do
          Eval.count k.job fun c => { c with hits := c.hits + 1 }
          Eval.emit k.job (.answered q.location)
          return some v)
          (fun found => ∀ w, found = some w → k.job.options.remember = true ∧ ∃ m, k.memory m ∧ m.find? q = some w) :=
        bind (count (fun _ => Nat.le_refl _) fun _ => Nat.le_refl _) fun _ => bind emit fun _ => pure fun h w hw => by
          cases hw
          exact ⟨hr, _, h.1.1.2.memory, hf⟩
      refine ⟨(hl s).1, fun hφ hs => ((hl s).2 ⟨hφ, hs⟩ hs).imp_right fun ⟨hQ, hs'⟩ => ⟨hQ, hs'.recall ⟨hs'.memory, ?_⟩⟩⟩
      intro hn
      cases hn
    | none =>
      have hl : k.Yields φ (Eval.count k.job fun c => { c with misses := c.misses + 1 }) (fun _ => φ) :=
        count (fun _ => Nat.le_refl _) fun _ => Nat.le_refl _
      refine ⟨(hl s).1, fun hφ hs => ((hl s).2 hφ hs).imp_right fun ⟨_, hs'⟩ =>
        ⟨fun _ hv => (nomatch hv), hs'.recall ⟨hs'.memory, fun _ _ => ?_⟩⟩⟩
      show ((Eval.count k.job fun c => { c with misses := c.misses + 1 }).on s).2.memory.find? q = none
      rw [Eval.on_count]
      split <;> exact hf
  · next hr => exact ⟨id, fun _ hs => .inr ⟨by simp, hs.recall ⟨hs.memory, fun _ h => absurd h hr⟩⟩⟩

/-- A verdict is remembered if verdicts are; other attempts leave the memory as it is. -/
theorem remember_leaves {q : Question} {attempt : Attempt} {Q : Attempt → Prop} {M : Memory → Prop}
    (hm : φ → k.job.options.remember = true → ∀ v m, attempt = .settled v → k.memory m → M (m.insert q v))
    (hk : φ → (k.job.options.remember = true → ∀ v, attempt ≠ .settled v) → ∀ m, k.memory m → M m)
    (hQ : φ → Q (attempt.awaiting k.job q)) : k.Leaves φ (Eval.remember k.job q attempt) Q fun _ => M := by
  intro s
  unfold Eval.remember
  have keep {a : Attempt} (ha : φ → Q a) (hn : k.job.options.remember = true → ∀ v, attempt ≠ .settled v) :
      (k.alarm.rung s.counts → k.alarm.rung s.counts) ∧
        (φ → k.Fits s → k.alarm.rung s.counts ∨ Q a ∧ (k.recalling M).Fits s) :=
    ⟨id, fun hφ hs => .inr ⟨ha hφ, hs.recall (hk hφ hn _ hs.memory)⟩⟩
  cases hr : k.job.options.remember with
  | false =>
    have : attempt.awaiting k.job q = attempt := by
      unfold Attempt.awaiting
      split <;> simp [hr]
    exact keep (this ▸ hQ) (by simp [hr])
  | true =>
    cases attempt with
    | settled v =>
      exact ⟨id, fun hφ hs => .inr ⟨hQ hφ, hm hφ hr v _ rfl hs.memory, hs.mark, hs.depth, hs.deepest⟩⟩
    | recursion suspension =>
      cases suspension with
      | none => exact keep hQ (by simp)
      | some suspension => exact keep (fun hφ => by simpa [Attempt.awaiting, hr] using hQ hφ) (by simp)
    | broken error => exact keep hQ (by simp)

theorem remember {q : Question} {attempt : Attempt} {Q : Attempt → Prop}
    (hm : φ → ∀ v mem, attempt = .settled v → k.memory mem → k.memory (mem.insert q v))
    (hQ : φ → Q (attempt.awaiting k.job q)) : k.Yields φ (Eval.remember k.job q attempt) Q :=
  remember_leaves (fun hφ _ => hm hφ) (fun _ _ _ => id) hQ

/-- An expression is answered from memory, signalled or worked out. The work may leave a memory of
another kind if it is put in order by remembering what came of it. -/
theorem remembering_leaves {work : Applier} {e : Expr} {setting : Setting} {Q R : Attempt → Prop}
    {M : Attempt → Memory → Prop}
    (hit : φ → k.job.options.remember = true → ∀ mem v, k.memory mem →
      mem.find? (.of e setting) = some v → R (.settled v))
    (back : k.Yields (φ ∧ ∃ rule, e = .rule rule ∧ k.mark = some (rule, setting.location))
      (Eval.reportReentry k.job (e.reference?.getD "") setting.location >>= fun _ => Pure.pure (.recursion none)) R)
    (hw : ((k.asking (.of e setting)).inside e.reference? setting.location).Leaves
      (φ ∧ ∀ rule, e = .rule rule → k.mark ≠ some (rule, setting.location)) (work e setting) Q M)
    (hm : φ → k.job.options.remember = true → ∀ v mem, Q (.settled v) → M (.settled v) mem →
      k.memory (mem.insert (.of e setting) v))
    (hk : φ → ∀ a mem, Q a → (k.job.options.remember = true → ∀ v, a ≠ .settled v) → M a mem → k.memory mem)
    (hQ : φ → ∀ a, Q a → R (a.awaiting k.job (.of e setting))) :
    k.Yields φ (Packrat.remembering k.job work e setting) R := by
  show k.Leaves φ _ R fun _ => k.memory
  unfold Packrat.remembering
  refine Leaves.bind lookUp fun found => ?_
  cases found with
  | some v =>
    refine Leaves.narrow (k := k) (pure fun h => ?_) fun _ => And.left
    obtain ⟨hr, m, hmem, hv⟩ := h.2 v rfl
    exact hit h.1 hr m v hmem hv
  | none =>
    refine Leaves.bind_get fun s => ?_
    split
    · next hre =>
      refine (Leaves.guard (k := k) (M := fun _ => k.memory) back fun ⟨h, hs⟩ => ⟨h.1, ?_⟩).narrow fun _ => And.left
      have hmark : s.entered = k.mark := hs.mark
      cases e with
      | rule rule => exact ⟨rule, rfl, by simpa [Session.reenters, hmark] using hre⟩
      | _ => simp [Session.reenters] at hre
    · next hre =>
      refine Leaves.bind (Q := Q) (M := M) ?_ fun a => ?_
      · refine Leaves.narrow (k := k.asking (.of e setting))
          ((nested_leaves hw).guard fun ⟨⟨hφ, _⟩, hs⟩ => ⟨hφ, fun rule he hm => hre ?_⟩) fun m h => ⟨h.1, h.2 rfl⟩
        have hmark : s.entered = some (rule, setting.location) := Eq.trans hs.mark hm
        subst he
        simp [Session.reenters, hmark]
      · refine remember_leaves (k := k.recalling (M a)) (fun h hr v m ha hmem => ?_) (fun h hr m => ?_) fun h => ?_
        · subst ha
          exact hm h.1.1.1 hr v m h.2 hmem
        · exact hk h.1.1.1 a m h.2 hr
        · exact hQ h.1.1.1 a h.2

/-- An expression is answered from memory, signalled or worked out. -/
theorem remembering {work : Applier} {e : Expr} {setting : Setting} {Q R : Attempt → Prop}
    (hit : φ → k.job.options.remember = true → ∀ mem v, k.memory mem →
      mem.find? (.of e setting) = some v → R (.settled v))
    (back : k.Yields (φ ∧ ∃ rule, e = .rule rule ∧ k.mark = some (rule, setting.location))
      (Eval.reportReentry k.job (e.reference?.getD "") setting.location >>= fun _ => Pure.pure (.recursion none)) R)
    (hw : (k.inside e.reference? setting.location).Yields
      (φ ∧ ∀ rule, e = .rule rule → k.mark ≠ some (rule, setting.location)) (work e setting) Q)
    (hm : φ → ∀ v mem, Q (.settled v) → k.memory mem → k.memory (mem.insert (.of e setting) v))
    (hQ : φ → ∀ a, Q a → R (a.awaiting k.job (.of e setting))) :
    k.Yields φ (Packrat.remembering k.job work e setting) R :=
  remembering_leaves (M := fun _ => k.memory) hit back ((hw.leaves fun _ _ _ => id).narrow fun _ => And.left)
    (fun hφ _ => hm hφ) (fun _ _ _ _ _ => id) hQ

end Yields

end Stance

end Packrat

/-
Counts only grow, so an alarm that has rung stays rung, whatever step is taken. So where a step begins
with the alarm rung, or under a guard that is not true, nothing else has to be shown.
-/
import Packrat.Proofs.Session.Passage

namespace Packrat

/-- The step does not silence the alarm. -/
def Alarm.Persists {α : Type} (alarm : Alarm) (x : Eval α) : Prop :=
  ∀ s, alarm.rung s.counts → alarm.rung (x.on s).2.counts

namespace Alarm.Persists

variable {α β : Type} {alarm : Alarm} {job : Job}

/-! ## Plumbing -/

theorem pure {a : α} : alarm.Persists (Pure.pure a) := fun _ h => h

theorem bind {x : Eval α} {f : α → Eval β} (hx : alarm.Persists x) (hf : ∀ a, alarm.Persists (f a)) :
    alarm.Persists (x >>= f) := fun s h => hf _ _ (hx s h)

theorem bind_get {f : Session → Eval α} (hf : ∀ s, alarm.Persists (f s)) : alarm.Persists (get >>= f) :=
  fun s h => hf s s h

theorem ite {p : Prop} [Decidable p] {x y : Eval α} (hx : alarm.Persists x) (hy : alarm.Persists y) :
    alarm.Persists (if p then x else y) := by
  split
  · exact hx
  · exact hy

theorem count {update : Counts → Counts} (hd : ∀ c, c.deepest ≤ (update c).deepest)
    (hr : ∀ c, c.reentries ≤ (update c).reentries) : alarm.Persists (Eval.count job update) := by
  intro s h
  rw [Eval.on_count]
  split
  · exact alarm.kept (hd _) (hr _) h
  · exact h

theorem emit {event : Event} : alarm.Persists (Eval.emit job event) := by
  intro s h
  rw [Eval.on_emit]
  split <;> exact h

theorem note {entry : Note} : alarm.Persists (Eval.note entry) := fun _ h => h

theorem reportReentry {rule : String} {location : Location} :
    alarm.Persists (Eval.reportReentry job rule location) :=
  bind note fun _ => bind (count (fun _ => Nat.le_refl _) fun _ => Nat.le_succ _) fun _ => emit

end Alarm.Persists

/-- No step of a parse silences an alarm. -/
theorem Alarm.passage (alarm : Alarm) {job : Job} : Passage job fun s t => alarm.rung s.counts → alarm.rung t.counts where
  refl _ := id
  trans h h' hr := h' (h hr)
  answered := Persists.bind (.count (fun _ => Nat.le_refl _) fun _ => Nat.le_refl _) fun _ => .emit
  missed := Persists.count (fun _ => Nat.le_refl _) fun _ => Nat.le_refl _
  recorded _ := id
  reentered := Persists.reportReentry
  failed := Persists.bind .emit fun _ => .count (fun _ => Nat.le_refl _) fun _ => Nat.le_refl _
  resumed := Persists.bind .note fun _ => .bind .emit fun _ => .count (fun _ => Nat.le_refl _) fun _ => Nat.le_refl _
  grown := Persists.bind (.count (fun _ => Nat.le_refl _) fun _ => Nat.le_refl _) fun _ => .note
  nested hwork := Persists.bind_get fun _ => .bind_get fun _ => .bind (fun _ => id) fun _ =>
    .bind (.count (fun _ => Nat.le_max_left _ _) fun _ => Nat.le_refl _) fun _ => .bind hwork fun _ =>
      .bind (fun _ => id) fun _ => .pure
  entered hwork := Persists.bind .emit fun _ => .bind (.count (fun _ => Nat.le_refl _) fun _ => Nat.le_refl _) fun _ =>
    .bind hwork fun _ => .bind .emit fun _ => .pure

namespace Alarm.Persists

variable {alarm : Alarm} {job : Job} {apply : Applier} {setting : Setting} {run : Run}

/-! ## Sequences and suspended work -/

section

variable (h : ∀ e setting, alarm.Persists (apply e setting))
include h

theorem skipBetween {acc : Accumulator} : alarm.Persists (Packrat.skipBetween job apply setting acc) :=
  alarm.passage.skipBetween h

theorem absorb {attempt : Attempt} : alarm.Persists (run.absorb job apply attempt) := alarm.passage.absorb h

theorem drive {fuel : Nat} : alarm.Persists (run.drive job apply fuel) := alarm.passage.drive h

theorem extend {fuel : Nat} {cursor : Position} {tree : Tree} : alarm.Persists (run.extend job apply fuel cursor tree) :=
  alarm.passage.extend h

theorem complete : alarm.Persists (run.complete job apply) := alarm.passage.complete h

theorem plantSeed {suspension : Suspension} {seed : Tree} : alarm.Persists (Packrat.plantSeed job apply suspension seed) :=
  alarm.passage.plantSeed h

/-! ## Expressions -/

theorem tryChoice {alternatives : List Expr} {tried : Tried} :
    alarm.Persists (Packrat.tryChoice job apply setting alternatives tried) := alarm.passage.tryChoice h

theorem rounds {body : Expr} {bounds : Bounds} {fuel : Nat} {rounds : Rounds} :
    alarm.Persists (rounds.drive job apply body bounds setting fuel) := alarm.passage.rounds h

end

theorem applyWithin (levels : Nat) (e : Expr) (setting : Setting) : alarm.Persists (Packrat.applyWithin job levels e setting) :=
  alarm.passage.applyWithin levels e setting

end Alarm.Persists

namespace Stance.Leaves

variable {α : Type} {k : Stance} {φ : Prop} {x : Eval α} {Q : α → Prop} {M : α → Memory → Prop}

/-- The guard of a step may be taken for a fact. -/
theorem of_guard (hx : k.alarm.Persists x) (h : φ → k.Leaves True x Q M) : k.Leaves φ x Q M := fun s =>
  ⟨hx s, fun hφ => (h hφ s).2 trivial⟩

/-- Where nothing is deeper than the stance without ringing the alarm, nothing has to be shown. -/
theorem too_deep (hc : k.job.options.counting = true) (h : ∀ c : Counts, k.depth ≤ c.deepest → k.alarm.rung c)
    (hx : k.alarm.Persists x) : k.Leaves φ x Q M := fun s =>
  ⟨hx s, fun _ hs => .inl (hx s (h _ (hs.depth ▸ hs.deepest hc)))⟩

end Stance.Leaves

end Packrat

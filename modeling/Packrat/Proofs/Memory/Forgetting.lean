/-
Parsing without a memory, next to a parse that may have one. Without a memory the result of a step
depends on nothing in the session but the rule entered last. A step of a parse mirrors such steps
when it comes to what they come to once enough levels of nesting are allowed.
-/
import Mathlib.Order.Filter.AtTopBot.Basic
import Packrat.Proofs.Session.Persistence

namespace Packrat

open Filter

/-- The job without a memory and unobserved. -/
def Job.forgetful (job : Job) : Job := { job with options := ⟨false, job.options.depthLimit, false, false⟩ }

namespace Eval

variable {α β : Type}

/-- Taken under the mark, the step has the result and leaves the mark. -/
def Tells (x : Eval α) (m : Mark) (a : α) : Prop :=
  ∀ s : Session, s.entered = m → (x.on s).1 = a ∧ (x.on s).2.entered = m

namespace Tells

variable {x : Eval α} {f : α → Eval β} {m : Mark} {a b : α} {c : β} {job : Job}

/-- What is told does not depend on the session. -/
theorem unique (ha : x.Tells m a) (hb : x.Tells m b) : a = b := by
  have hs : ({ Session.start with entered := m } : Session).entered = m := rfl
  exact (ha _ hs).1.symm.trans (hb _ hs).1

theorem pure : Tells (Pure.pure a) m a := fun _ h => ⟨rfl, h⟩

theorem bind (hx : x.Tells m a) (hf : (f a).Tells m c) : (x >>= f).Tells m c := by
  intro s hs
  obtain ⟨ha, hm⟩ := hx s hs
  rw [Eval.on_bind, ha]
  exact hf _ hm

theorem bind_get {f : Session → Eval β} (hf : ∀ s, s.entered = m → (f s).Tells m c) : (get >>= f).Tells m c :=
  fun s hs => hf s hs s hs

theorem note {entry : Note} : (Eval.note entry).Tells m () := fun _ h => ⟨rfl, h⟩

theorem count {update : Counts → Counts} : (Eval.count job update).Tells m () := by
  intro s hs
  rw [Eval.on_count]
  split <;> exact ⟨rfl, hs⟩

theorem emit {event : Event} : (Eval.emit job event).Tells m () := by
  intro s hs
  rw [Eval.on_emit]
  split <;> exact ⟨rfl, hs⟩

theorem nested {rule : Option String} {location : Location} {work : Eval Attempt} {a : Attempt}
    (h : work.Tells (m.inside rule location) a) : (Eval.nested job rule location work).Tells m a := by
  refine bind_get fun s hs => bind_get fun s' hs' => ?_
  intro t ht
  let entered : Session := { t with depth := s.depth + 1, entered := (rule.map (·, location)).or t.entered }
  have hentered : entered.entered = m.inside rule location := congrArg (Mark.inside · rule location) ht
  have hdeepest : (Eval.count job fun c => { c with deepest := max c.deepest (s.depth + 1) }).Tells
    (m.inside rule location) () := count
  have hcount := hdeepest entered hentered
  obtain ⟨ha, hm⟩ := h _ hcount.2
  refine ⟨ha, ?_⟩
  show (if rule.isSome then s'.entered else _) = m
  cases rule with
  | none => exact hm
  | some rule => exact hs'

/-- Without a memory an expression is worked out, unless it comes back to itself. -/
theorem remembering {work : Applier} {e : Expr} {setting : Setting} {a : Attempt}
    (hn : ∀ rule, e = .rule rule → m ≠ some (rule, setting.location))
    (hw : (work e setting).Tells (m.inside e.reference? setting.location) a) :
    (Packrat.remembering job.forgetful work e setting).Tells m a := by
  refine bind pure (bind_get fun s hs => ?_)
  have : s.reenters e setting.location = false := by
    cases e with
    | rule rule =>
      show (s.entered == some (rule, setting.location)) = false
      rw [hs]
      simpa using hn rule rfl
    | _ => rfl
  rw [this]
  exact bind (nested hw) pure

/-- A step that yields a result in any session of the mark tells it. -/
theorem of_yields (h : ∀ depth, (⟨job.forgetful, .none, fun _ => True, m, depth⟩ : Stance).Yields True x (· = a)) :
    x.Tells m a := by
  intro s hs
  have hfits : (⟨job.forgetful, .none, fun _ => True, m, s.depth⟩ : Stance).Fits s :=
    ⟨trivial, hs, rfl, fun hc => Bool.noConfusion hc⟩
  rcases (h s.depth s).2 trivial hfits with hr | ⟨ha, hf⟩
  · exact hr.elim
  · exact ⟨ha, hf.mark⟩

end Tells

end Eval

/-! ## Mirroring -/

namespace Stance

/-- What a step yields in each of several ways it yields in all of them. -/
theorem Yields.each {α ι : Type} {k : Stance} {φ : Prop} {x : Eval α} {ψ : ι → Prop} {Q : ι → α → Prop}
    (first : ι) (h : ∀ i, k.Yields (φ ∧ ψ i) x (Q i)) (hfirst : φ → ψ first) : k.Yields φ x fun a => ∀ i, ψ i → Q i a := by
  refine fun s => ⟨(h first s).1, fun hφ hs => ?_⟩
  by_cases hr : k.alarm.rung (x.on s).2.counts
  · exact .inl hr
  · refine .inr ⟨fun i hi => ?_, ?_⟩
    · exact (((h i s).2 ⟨hφ, hi⟩ hs).resolve_left hr).1
    · exact (((h first s).2 ⟨hφ, hfirst hφ⟩ hs).resolve_left hr).2

/-- Taken in a session of the stance with the guard true, the step has a result with `Q`, and with
enough levels the steps next to it tell, under the mark `m`, what corresponds to it. -/
def Mirrors {α β : Type} (k : Stance) (φ : Prop) (x : Eval α) (m : Mark) (y : Nat → Eval β) (c : α → β)
    (Q : α → Prop) : Prop :=
  k.Yields φ x fun a => Q a ∧ ∀ᶠ n in atTop, (y n).Tells m (c a)

namespace Mirrors

variable {α β γ δ : Type} {k : Stance} {φ ψ : Prop} {x : Eval α} {m : Mark} {y : Nat → Eval β} {c : α → β}
  {Q R : α → Prop}

theorem pure {a : α} {b : β} (h : φ → Q a) (hb : c a = b) : k.Mirrors φ (Pure.pure a) m (fun _ => Pure.pure b) c Q :=
  Yields.pure fun hφ => ⟨h hφ, .of_forall fun _ => hb ▸ .pure⟩

theorem bind {f : α → Eval γ} {g : Nat → β → Eval δ} {d : γ → δ} {R : γ → Prop} (hx : k.Mirrors φ x m y c Q)
    (hf : ∀ a, k.Mirrors (φ ∧ Q a) (f a) m (fun n => g n (c a)) d R) :
    k.Mirrors φ (x >>= f) m (fun n => y n >>= g n) d R := by
  refine Yields.bind hx fun a => ?_
  have h : k.Yields (φ ∧ Q a ∧ ∀ᶠ n in atTop, (y n).Tells m (c a)) (f a) _ := (hf a).guard fun h => ⟨h.1, h.2.1⟩
  refine h.post fun b hφ ⟨hb, hg⟩ => ⟨hb, ?_⟩
  exact (hφ.2.2.and hg).mono fun n hn => hn.1.bind hn.2

theorem guard (hx : k.Mirrors φ x m y c Q) (h : ψ → φ) : k.Mirrors ψ x m y c Q := Yields.guard hx h

theorem post (hx : k.Mirrors φ x m y c Q) (h : ∀ a, φ → Q a → R a) : k.Mirrors φ x m y c R :=
  Yields.post hx fun a hφ ha => ⟨h a hφ ha.1, ha.2⟩

/-- The steps next to it may be replaced by others that tell as much. -/
theorem via {y' : Nat → Eval β} (hx : k.Mirrors φ x m y' c Q)
    (h : φ → ∀ n b, (y' n).Tells m b → (y n).Tells m b) : k.Mirrors φ x m y c Q :=
  Yields.post hx fun _ hφ ha => ⟨ha.1, ha.2.mono fun n hn => h hφ n _ hn⟩

theorem void (hx : k.alarm.Persists x) (h : ¬ φ) : k.Mirrors φ x m y c Q := Yields.void hx h

theorem ite {p : Prop} [Decidable p] {x' : Eval α} {y' : Nat → Eval β} (hx : p → k.Mirrors φ x m y c Q)
    (hx' : ¬ p → k.Mirrors φ x' m y' c Q) :
    k.Mirrors φ (if p then x else x') m (fun n => if p then y n else y' n) c Q := by
  split
  · next h => exact hx h
  · next h => exact hx' h

theorem note {entry entry' : Note} : k.Mirrors φ (Eval.note entry) m (fun _ => Eval.note entry') id (fun _ => φ) :=
  Yields.note.post fun _ _ h => ⟨h, .of_forall fun _ => .note⟩

theorem emit {event : Event} {job : Job} :
    k.Mirrors φ (Eval.emit k.job event) m (fun _ => Eval.emit job event) id (fun _ => φ) :=
  Yields.emit.post fun _ _ h => ⟨h, .of_forall fun _ => .emit⟩

theorem count {update : Counts → Counts} {job : Job} (hd : ∀ c, c.deepest ≤ (update c).deepest)
    (hr : ∀ c, c.reentries ≤ (update c).reentries) :
    k.Mirrors φ (Eval.count k.job update) m (fun _ => Eval.count job update) id (fun _ => φ) :=
  (Yields.count hd hr).post fun _ _ h => ⟨h, .of_forall fun _ => .count⟩

end Mirrors

end Stance

end Packrat

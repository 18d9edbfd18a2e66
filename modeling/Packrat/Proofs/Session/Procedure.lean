/-
Procedures: steps that are given a way to try expressions. As long as no rule comes back to itself, a
procedure tries one expression after the other and does nothing else but keep book. Two procedures
concur when they try corresponding expressions and go on alike with whatever comes of them. What a
procedure comes to and which expressions it tries is shown by induction over that.
-/
import Packrat.Proofs.Session.Persistence

namespace Packrat

/-! ## Bookkeeping -/

/-- Sessions that agree in all that matters to the expressions that are tried: they differ in events, in
the journal and in what an expression counts by itself. -/
structure Session.Near (s t : Session) : Prop where
  memory : t.memory = s.memory
  entered : t.entered = s.entered
  depth : t.depth = s.depth
  deepest : t.counts.deepest = s.counts.deepest
  reentries : t.counts.reentries = s.counts.reentries
  misses : t.counts.misses = s.counts.misses

namespace Session.Near

variable {s t u : Session}

theorem refl (s : Session) : s.Near s := ⟨rfl, rfl, rfl, rfl, rfl, rfl⟩

theorem trans (h : s.Near t) (k : t.Near u) : s.Near u :=
  ⟨k.memory.trans h.memory, k.entered.trans h.entered, k.depth.trans h.depth, k.deepest.trans h.deepest,
    k.reentries.trans h.reentries, k.misses.trans h.misses⟩

theorem reenters (h : s.Near t) (e : Expr) (location : Location) : t.reenters e location = s.reenters e location := by
  unfold Session.reenters
  rw [h.entered]

end Session.Near

/-- The step does nothing but keep book. -/
def Eval.Books (x : Eval Unit) : Prop := ∀ s : Session, s.Near (x.on s).2

namespace Eval.Books

variable {job : Job}

theorem emit {event : Event} : Books (Eval.emit job event) := by
  intro s
  rw [Eval.on_emit]
  split
  · exact ⟨rfl, rfl, rfl, rfl, rfl, rfl⟩
  · exact .refl s

theorem count {update : Counts → Counts} (hd : ∀ c, (update c).deepest = c.deepest)
    (hr : ∀ c, (update c).reentries = c.reentries) (hm : ∀ c, (update c).misses = c.misses) :
    Books (Eval.count job update) := by
  intro s
  rw [Eval.on_count]
  split
  · exact ⟨rfl, rfl, rfl, hd _, hr _, hm _⟩
  · exact .refl s

end Eval.Books

/-! ## Procedures -/

/-- A step that is given a way to try expressions. -/
abbrev Procedure (α : Type) := Applier → Eval α

/-- Results that can tell that the grammar turned out to be malformed, and how. -/
class Breakable (α : Type) where
  broken : GrammarError → α
  injective : Function.Injective broken

instance : Breakable Attempt := ⟨.broken, fun _ _ h => by cases h; rfl⟩

instance {α : Type} : Breakable (Except Attempt α) := ⟨fun error => .error (.broken error), fun _ _ h => by cases h; rfl⟩

instance {α : Type} : Breakable (Except GrammarError α) := ⟨.error, fun _ _ h => by cases h; rfl⟩

namespace Procedure

variable {α β : Type} {job : Job} {x : Procedure α} {f : α → Procedure β} {a : α} {e : Expr} {setting : Setting}
  {u : Attempt → Procedure α}

/-- Alarms stay rung during the procedure if they do while expressions are tried. -/
def Persists (x : Procedure α) : Prop :=
  ∀ {alarm : Alarm} {apply : Applier}, (∀ e setting, alarm.Persists (apply e setting)) → alarm.Persists (x apply)

/-- The procedure has the result without trying any expression. -/
def Gives (x : Procedure α) (a : α) : Prop :=
  ∀ s : Session, ∃ s', s.Near s' ∧ ∀ apply, (x apply).on s = (a, s')

/-- The procedure tries the expression and then goes on with what came of it. If it is wary, it signals instead
where the expression is the rule entered last. A malformed grammar ends it. -/
structure Begins [Breakable α] (job : Job) (x : Procedure α) (wary : Prop) (e : Expr) (setting : Setting)
    (u : Attempt → Procedure α) : Prop where
  run : ∀ s : Session, ¬ (wary ∧ s.reenters e setting.location = true) →
    ∃ s', s.Near s' ∧ ∀ apply, (x apply).on s = Eval.on (apply e setting >>= fun a => u a apply) s'
  signal : ∀ s : Session, wary → s.reenters e setting.location = true → ∀ (alarm : Alarm) (apply : Applier),
    (∀ e setting, alarm.Persists (apply e setting)) → job.options.counting = true →
      (∀ c : Counts, 0 < c.reentries → alarm.rung c) → alarm.rung ((x apply).on s).2.counts
  persists : ∀ a, (u a).Persists
  breaks : ∀ error, (u (.broken error)).Gives (Breakable.broken error)

/-! ## Plumbing -/

theorem Gives.pure : Gives (fun _ => Pure.pure a) a := fun s => ⟨s, .refl s, fun _ => rfl⟩

theorem Gives.bind {b : β} (hx : x.Gives a) (hf : (f a).Gives b) : Gives (fun apply => x apply >>= fun a => f a apply) b := by
  intro s
  obtain ⟨s', hn, hs⟩ := hx s
  obtain ⟨s'', hn', hs'⟩ := hf s'
  refine ⟨s'', hn.trans hn', fun apply => ?_⟩
  rw [Eval.on_bind, hs apply]
  exact hs' apply

theorem Gives.of_books {k : Eval Unit} (h : k.Books) : Gives (fun _ => k) () := fun s => ⟨_, h s, fun _ => rfl⟩

variable [Breakable α] [Breakable β]

/-- Where the rule entered last would be tried, that may be signalled instead. -/
theorem begins_wary {wary : Prop} [Decidable wary] {name : String} {location : Location} {b : α}
    (hp : ∀ a, (u a).Persists) (hb : ∀ error, (u (.broken error)).Gives (Breakable.broken error)) :
    Begins job (fun apply => do
      if wary ∧ (← get).reenters e setting.location then
        Eval.reportReentry job name location
        return b
      else
        let a ← apply e setting
        u a apply) wary e setting u := by
  have hon (s : Session) (apply : Applier) : Eval.on (do
      if wary ∧ (← get).reenters e setting.location then
        Eval.reportReentry job name location
        return b
      else
        let a ← apply e setting
        u a apply) s = Eval.on (if wary ∧ s.reenters e setting.location = true then
        Eval.reportReentry job name location >>= fun _ => Pure.pure b else apply e setting >>= fun a => u a apply) s := rfl
  refine ⟨fun s hn => ⟨s, .refl s, fun apply => ?_⟩, fun s hw hre alarm apply _ hc hl => hl _ ?_, hp, hb⟩
  · rw [hon, if_neg hn]
  · rw [hon, if_pos ⟨hw, hre⟩]
    simp only [Eval.reportReentry, Eval.on_bind, Eval.on_note, Eval.on_count, hc, if_true, Eval.on_emit]
    split <;> exact Nat.succ_pos _

variable {wary : Prop}

theorem Begins.bind (hx : x.Begins job wary e setting u) (hf : ∀ a, (f a).Persists)
    (hb : ∀ error, (f (Breakable.broken error)).Gives (Breakable.broken error)) :
    Begins job (fun apply => x apply >>= fun a => f a apply) wary e setting
      fun a apply => u a apply >>= fun b => f b apply := by
  refine ⟨fun s hn => ?_, fun s hw hre alarm apply h hc hl => hf _ h _ (hx.signal s hw hre alarm apply h hc hl),
    fun a alarm apply h => .bind (hx.persists a h) fun b => hf b h, fun error => (hx.breaks error).bind (hb error)⟩
  obtain ⟨s', hnear, hs⟩ := hx.run s hn
  refine ⟨s', hnear, fun apply => ?_⟩
  rw [Eval.on_bind, hs apply]
  rfl

/-- What follows a result begins what it begins by itself. -/
theorem Begins.behind {γ : Type} {y : Procedure γ} {c : γ} {g : γ → Procedure α} (hy : y.Gives c)
    (hg : (g c).Begins job wary e setting u) : Begins job (fun apply => y apply >>= fun c => g c apply) wary e setting u := by
  have hon (s : Session) : ∃ s', s.Near s' ∧ ∀ apply, Eval.on (y apply >>= fun c => g c apply) s = (g c apply).on s' := by
    obtain ⟨s', hn, hs⟩ := hy s
    refine ⟨s', hn, fun apply => ?_⟩
    rw [Eval.on_bind, hs apply]
  refine ⟨fun s hn => ?_, fun s hw hre alarm apply h hc hl => ?_, hg.persists, hg.breaks⟩
  · obtain ⟨s', hnear, hs⟩ := hon s
    obtain ⟨s'', hnear', hs'⟩ := hg.run s' fun h => hn ⟨h.1, (hnear.reenters e setting.location).symm.trans h.2⟩
    exact ⟨s'', hnear.trans hnear', fun apply => (hs apply).trans (hs' apply)⟩
  · obtain ⟨s', hnear, hs⟩ := hon s
    rw [hs apply]
    exact hg.signal s' hw ((hnear.reenters e setting.location).trans hre) alarm apply h hc hl

end Procedure

/-! ## Concurrence -/

open Procedure

/-- The procedures try corresponding expressions, as `A` says, one after the other. As long as what comes
of these has `F`, both go on alike, and in the end the result of the first one has `Q` and `c` turns it
into that of the second. -/
inductive Concur {α β : Type} [Breakable α] [Breakable β] (job job' : Job) (A : Expr → Setting → Expr → Setting → Prop)
    (F : Attempt → Prop) (c : α → β) (Q : α → Prop) : Procedure α → Procedure β → Prop
  | gives {x : Procedure α} {y : Procedure β} {a : α} : Q a → x.Gives a → y.Gives (c a) → Concur job job' A F c Q x y
  | begins {x : Procedure α} {y : Procedure β} {wary : Prop} {e e' : Expr} {setting setting' : Setting}
    {u : Attempt → Procedure α} {v : Attempt → Procedure β} : A e setting e' setting' → x.Begins job wary e setting u →
      y.Begins job' wary e' setting' v → (∀ a, F a → Concur job job' A F c Q (u a) (v a)) → Concur job job' A F c Q x y

namespace Concur

variable {α β γ δ : Type} [Breakable α] [Breakable β] [Breakable γ] [Breakable δ] {job job' : Job}
  {A : Expr → Setting → Expr → Setting → Prop} {F : Attempt → Prop} {c : α → β} {d : γ → δ} {Q : α → Prop} {R : γ → Prop}
  {x : Procedure α} {y : Procedure β} {f : α → Procedure γ} {g : β → Procedure δ}

theorem pure {a : α} {b : β} (h : Q a) (hb : c a = b) :
    Concur job job' A F c Q (fun _ => Pure.pure a) (fun _ => Pure.pure b) := .gives h .pure (hb ▸ .pure)

theorem attempt {e e' : Expr} {setting setting' : Setting} (h : A e setting e' setting') :
    Concur job job' A F id F (fun apply => apply e setting) (fun apply => apply e' setting') := by
  have hbegins (job : Job) (e : Expr) (setting : Setting) :
      Begins job (fun apply => apply e setting) False e setting fun a _ => Pure.pure a :=
    ⟨fun s _ => ⟨s, .refl s, fun _ => rfl⟩, fun _ => False.elim, fun _ _ _ _ => .pure, fun _ => .pure⟩
  exact .begins h (hbegins _ _ _) (hbegins _ _ _) fun a ha => .pure ha rfl

/-- What follows bookkeeping concurs if it does by itself. -/
theorem behind {α' β' : Type} {x : Procedure α'} {y : Procedure β'} {a : α'} {b : β'} {f : α' → Procedure γ}
    {g : β' → Procedure δ} (hx : x.Gives a) (hy : y.Gives b) (h : Concur job job' A F d R (f a) (g b)) :
    Concur job job' A F d R (fun apply => x apply >>= fun a => f a apply) (fun apply => y apply >>= fun b => g b apply) := by
  cases h with
  | gives hR hf hg => exact .gives hR (hx.bind hf) (hy.bind hg)
  | begins hA hf hg hu => exact .begins hA (.behind hx hf) (.behind hy hg) hu

theorem books {k k' : Eval Unit} {x : Procedure α} {y : Procedure β} (hk : k.Books) (hk' : k'.Books)
    (h : Concur job job' A F c Q x y) :
    Concur job job' A F c Q (fun apply => k >>= fun _ => x apply) (fun apply => k' >>= fun _ => y apply) :=
  behind (.of_books hk) (.of_books hk') h

theorem bind (hx : Concur job job' A F c Q x y) (hf : ∀ a, Q a → Concur job job' A F d R (f a) (g (c a)))
    (hp : ∀ a, (f a).Persists) (hp' : ∀ b, (g b).Persists)
    (hb : ∀ error, (f (Breakable.broken error)).Gives (Breakable.broken error))
    (hb' : ∀ error, (g (Breakable.broken error)).Gives (Breakable.broken error)) :
    Concur job job' A F d R (fun apply => x apply >>= fun a => f a apply) (fun apply => y apply >>= fun b => g b apply) := by
  induction hx with
  | gives hQ hx hy => exact behind hx hy (hf _ hQ)
  | begins hA hx hy _ ih => exact .begins hA (hx.bind hp hb) (hy.bind hp' hb') ih

theorem ite {p : Prop} [Decidable p] {x' : Procedure α} {y' : Procedure β} (hx : p → Concur job job' A F c Q x y)
    (hx' : ¬ p → Concur job job' A F c Q x' y') :
    Concur job job' A F c Q (fun apply => if p then x apply else x' apply) (fun apply => if p then y apply else y' apply) := by
  by_cases h : p
  · simp only [h, if_true]
    exact hx h
  · simp only [h, if_false]
    exact hx' h

theorem post {R : α → Prop} (hx : Concur job job' A F c Q x y) (h : ∀ a, Q a → R a) : Concur job job' A F c R x y := by
  induction hx with
  | gives hQ hx hy => exact .gives (h _ hQ) hx hy
  | begins hA hx hy _ ih => exact .begins hA hx hy ih

end Concur

end Packrat

/-
Steps that a malformed grammar ends. An operator tries one expression after the other, and between them it does
nothing but keep book; as soon as one of them finds the grammar malformed, so does the operator. So an operator that
comes to something else although every call but those of a kind finds the grammar malformed makes calls of this kind
only.
-/
import Packrat.Proofs.Session.Calls

namespace Packrat

variable {job : Job}

/-- Suspended work that is resumed with a malformed grammar comes to that. -/
theorem resume_broken {apply : Applier} {error : GrammarError} : ∀ {suspension : Suspension} {s : Session},
    ((Suspension.resume job apply suspension (.broken error)).on s).1 = .broken error
  | [], _ => rfl
  | work :: others, s => by
    have hwork : (work.resume job apply (.broken error)).on s = (.broken error, s) := by
      cases work with
      | sequence run =>
        show (run.resume job apply (.broken error)).on s = _
        unfold Run.resume
        cases run.needsSeed <;> rfl
      | memory q =>
        show (Eval.remember job q (.broken error)).on s = _
        rw [on_remember]
        rfl
      | wrapping rule => rfl
    rw [Suspension.resume, Eval.on_bind, hwork]
    exact resume_broken

/-! ## Flat procedures -/

/-- The step leaves the nesting as it is, and no deeper than it was before. -/
def Eval.Level {α : Type} (x : Eval α) : Prop :=
  ∀ s, (x.on s).2.depth = s.depth ∧ (x.on s).2.counts.deepest = s.counts.deepest

namespace Eval.Level

variable {α β : Type} {job : Job}

theorem pure {a : α} : Level (Pure.pure a) := fun _ => ⟨rfl, rfl⟩

theorem bind {x : Eval α} {f : α → Eval β} (hx : Level x) (hf : ∀ a, Level (f a)) : Level (x >>= f) := by
  intro s
  obtain ⟨hdepth, hdeepest⟩ := hx s
  obtain ⟨hdepth', hdeepest'⟩ := hf (x.on s).1 (x.on s).2
  exact ⟨hdepth'.trans hdepth, hdeepest'.trans hdeepest⟩

theorem get : Level (MonadState.get : Eval Session) := fun _ => ⟨rfl, rfl⟩

theorem note {entry : Note} : Level (Eval.note entry) := fun _ => ⟨rfl, rfl⟩

theorem of_books {x : Eval Unit} (h : x.Books) : Level x := fun s => ⟨(h s).depth, (h s).deepest⟩

theorem emit {event : Event} : Level (Eval.emit job event) := .of_books .emit

theorem count {update : Counts → Counts} (h : ∀ c, (update c).deepest = c.deepest) : Level (Eval.count job update) := by
  intro s
  rw [Eval.on_count]
  split
  · exact ⟨rfl, h _⟩
  · exact ⟨rfl, rfl⟩

theorem reportReentry {rule : String} {location : Location} : Level (Eval.reportReentry job rule location) :=
  bind note fun _ => bind (count fun _ => rfl) fun _ => emit

theorem lookUp {q : Question} : Level (Eval.lookUp job q) := by
  unfold Eval.lookUp
  split
  · refine bind get fun s => ?_
    split
    · exact bind (count fun _ => rfl) fun _ => bind emit fun _ => pure
    · exact bind (count fun _ => rfl) fun _ => pure
  · exact pure

theorem remember {q : Question} {attempt : Attempt} : Level (Eval.remember job q attempt) := by
  intro s
  rw [on_remember]
  exact ⟨rfl, rfl⟩

end Eval.Level

/-- The procedure consists of expressions that it tries and of steps that leave the nesting as it is. A malformed grammar
ends it. -/
inductive Procedure.Flat : {α : Type} → [Breakable α] → Procedure α → Prop
  | level {α : Type} [Breakable α] {x : Eval α} : x.Level → Flat fun _ => x
  | attempt (e : Expr) (setting : Setting) : Flat fun apply => apply e setting
  | behind {α γ : Type} [Breakable α] {k : Eval γ} {f : γ → Procedure α} : k.Level → (∀ c, Flat (f c)) →
    Flat fun apply => k >>= fun c => f c apply
  | bind {α β : Type} [Breakable α] [Breakable β] {x : Procedure α} {f : α → Procedure β} : Flat x → (∀ a, Flat (f a)) →
    (∀ error apply s, ((f (Breakable.broken error) apply).on s).1 = Breakable.broken error) →
    Flat fun apply => x apply >>= fun a => f a apply

namespace Procedure.Flat

variable {job : Job} {setting : Setting} {run : Run}

theorem pure {α : Type} [Breakable α] {a : α} : Flat fun _ => (Pure.pure a : Eval α) := .level .pure

theorem ite {α : Type} [Breakable α] {p : Prop} [Decidable p] {x y : Procedure α} (hx : Flat x) (hy : Flat y) :
    Flat fun apply => if p then x apply else y apply := by
  by_cases h : p
  · simpa only [h, if_true] using hx
  · simpa only [h, if_false] using hy

theorem skipBetween {acc : Accumulator} : Flat fun apply => Packrat.skipBetween job apply setting acc := by
  unfold Packrat.skipBetween
  cases job.skipper? setting.skipping with
  | none => exact pure
  | some skipper =>
    refine .bind (.attempt _ _) (fun a => ?_) fun _ _ _ => rfl
    cases a <;> exact pure

theorem absorb {attempt : Attempt} : Flat fun apply => run.absorb job apply attempt := by
  unfold Run.absorb
  rcases attempt with (t | why | span | failure) | (_ | suspension) | error
  case settled.failed =>
    refine .bind skipBetween (fun r => ?_) fun _ _ _ => rfl
    rcases r with error | (_ | collected) <;> exact pure
  all_goals exact pure

theorem drive : ∀ {fuel : Nat} {run : Run}, Flat fun apply => run.drive job apply fuel
  | 0, _ => pure
  | fuel + 1, run => by
    unfold Run.drive
    cases run.parts[run.done]? with
    | none => exact pure
    | some part =>
      refine .behind .get fun s => ite ?_ ?_
      · exact .behind .reportReentry fun _ => pure
      · refine .bind (.attempt _ _) (fun a => .bind absorb (fun r => ?_) fun _ _ _ => rfl) fun _ _ _ => rfl
        cases r with
        | ok further => exact drive
        | error a => exact pure

theorem tail {cursor : Position} : Flat fun apply => run.tail job apply cursor := by
  refine .bind drive (fun r => ?_) fun _ _ _ => rfl
  cases r <;> exact pure

theorem extend : ∀ {fuel : Nat} {cursor : Position} {tree : Tree}, Flat fun apply => run.extend job apply fuel cursor tree
  | 0, _, _ => pure
  | fuel + 1, cursor, tree => by
    unfold Run.extend
    refine ite pure (.bind tail (fun a => ?_) fun _ _ _ => rfl)
    rcases a with (more | why | span | failure) | suspension | error
    · exact ite pure (.behind (.count fun _ => rfl) fun _ => .behind .note fun _ => extend)
    all_goals exact pure

theorem finish : Flat fun apply => run.finish job apply := by
  refine .bind drive (fun r => ?_) fun _ _ _ => rfl
  cases r with
  | ok last => exact ite extend pure
  | error a => exact pure

theorem resume : ∀ {suspension : Suspension} {attempt : Attempt}, Flat fun apply => Suspension.resume job apply suspension attempt
  | [], _ => pure
  | work :: others, a => by
    unfold Suspension.resume
    refine .bind ?_ (fun a => ?_) fun _ _ _ => ?_
    · cases work with
      | sequence run =>
        refine .bind absorb (fun r => ?_) fun _ _ _ => rfl
        cases r with
        | ok further => exact finish
        | error a => exact pure
      | memory q => exact .level .remember
      | wrapping rule => exact pure
    · rcases a with v | (_ | suspension) | error
      · exact resume
      · exact resume
      · exact pure
      · exact resume
    · exact resume_broken

theorem plantSeed {suspension : Suspension} {seed : Tree} : Flat fun apply => Packrat.plantSeed job apply suspension seed := by
  refine .behind .note fun _ => .behind .emit fun _ => .behind (.count fun _ => rfl) fun _ =>
    .bind resume (fun a => ?_) fun _ _ _ => rfl
  rcases a with (t | why | span | failure) | suspension | error <;> exact pure

theorem tryChoice : ∀ {alternatives : List Expr} {tried : Tried},
    Flat fun apply => Packrat.tryChoice job apply setting alternatives tried
  | [], tried => pure
  | alternative :: others, tried => by
    unfold Packrat.tryChoice
    refine .bind (.attempt _ _) (fun a => ?_) fun _ _ _ => rfl
    rcases a with (t | why | span | failure) | suspension | error
    · rcases tried.recursion with _ | (_ | suspension)
      · exact pure
      · exact pure
      · exact plantSeed
    · exact pure
    · exact pure
    · exact .behind .emit fun _ => .behind (.count fun _ => rfl) fun _ => tryChoice
    · exact tryChoice
    · exact pure

theorem rounds {body : Expr} {bounds : Bounds} : ∀ {fuel : Nat} {rounds : Rounds},
    Flat fun apply => rounds.drive job apply body bounds setting fuel
  | 0, _ => pure
  | fuel + 1, r => by
    unfold Rounds.drive
    refine ite pure (.bind (.attempt _ _) (fun a => ?_) fun _ _ _ => rfl)
    rcases a with (t | (_ | _ | _) | span | failure) | suspension | error
    · exact ite pure rounds
    · exact pure
    · exact pure
    · exact pure
    · exact ite pure rounds
    · refine .bind skipBetween (fun skipped => ?_) fun _ _ _ => rfl
      rcases skipped with error | (_ | collected)
      · exact pure
      · exact pure
      · exact rounds
    · exact pure
    · exact pure

theorem tryRule {name : String} : Flat fun apply => Packrat.tryRule job apply name setting := by
  unfold Packrat.tryRule
  cases job.grammar.rule? name with
  | none => exact pure
  | some body =>
    exact .behind .emit fun _ => .behind (.count fun _ => rfl) fun _ => .bind (.attempt _ _)
      (fun a => .behind .emit fun _ => pure) fun _ _ _ => rfl

theorem evaluate (e : Expr) (setting : Setting) : Flat fun apply => Packrat.evaluate job apply e setting := by
  cases e with
  | literal | pattern | external => exact pure
  | rule name => exact tryRule
  | sequence parts | merge parts => exact finish
  | choice alternatives => exact tryChoice
  | repetition body bounds fallback =>
    refine .bind rounds (fun r => ?_) fun _ _ _ => rfl
    cases r <;> exact pure
  | ahead body | notAhead body | omission body => exact .bind (.attempt _ _) (fun _ => pure) fun _ _ _ => rfl

/-! ## Strictness -/

variable {α : Type} [Breakable α] {x : Procedure α} {apply other : Applier} {error : GrammarError} {s : Session} {call : Call}

/-- If whatever is tried comes to the same or finds the grammar malformed, so does the procedure. -/
theorem same_or_broken (hx : x.Flat) (h : ∀ e setting s,
    (other e setting).on s = (apply e setting).on s ∨ ((other e setting).on s).1 = .broken error) :
    (x other).on s = (x apply).on s ∨ ((x other).on s).1 = Breakable.broken error := by
  induction hx generalizing s with
  | level => exact .inl rfl
  | attempt e setting => exact h e setting s
  | behind _ _ ih => exact ih _
  | bind _ _ hbreaks ihx ihf =>
    rw [Eval.on_bind, Eval.on_bind]
    rcases ihx (s := s) with hsame | hbroken
    · rw [hsame]
      exact ihf _
    · rw [hbroken]
      exact .inr (hbreaks error other _)

end Procedure.Flat

open Classical in
/-- Tries expressions in the same way where the calls are of a kind. All others find the grammar malformed. -/
noncomputable def Applier.only (apply : Applier) (P : Call → Prop) (error : GrammarError) : Applier := fun e setting => do
  if P ⟨e, setting, ← get⟩ then apply e setting else return .broken error

theorem Applier.on_only {apply : Applier} {P : Call → Prop} {error : GrammarError} {e : Expr} {setting : Setting} {s : Session}
    (h : P ⟨e, setting, s⟩) : (apply.only P error e setting).on s = (apply e setting).on s := by
  unfold only
  rw [Eval.on_bind, Eval.on_get, if_pos h]

theorem Applier.on_only_of_not {apply : Applier} {P : Call → Prop} {error : GrammarError} {e : Expr} {setting : Setting}
    {s : Session} (h : ¬ P ⟨e, setting, s⟩) : (apply.only P error e setting).on s = (.broken error, s) := by
  unfold only
  rw [Eval.on_bind, Eval.on_get, if_neg h]
  rfl

/-- If the procedure does not find the grammar malformed although all calls but those of a kind do, it calls for those only. -/
theorem Procedure.Flat.calls_only {α : Type} [Breakable α] {x : Procedure α} {apply : Applier} {P : Call → Prop}
    {error : GrammarError} {s : Session} {call : Call} (hx : x.Flat)
    (hn : ((x (apply.only P error)).on s).1 ≠ Breakable.broken error) (hcall : x.Calls apply s call) : P call := by
  by_contra hnot
  obtain ⟨other, hother, hne⟩ := hcall
  -- the call is not of the kind, so the kind cannot tell the two ways to try expressions apart
  have hsame (apply' : Applier) (h : ∀ made : Call, P made →
      (apply made.expr made.setting).on made.session = (apply' made.expr made.setting).on made.session) :
      (x (apply.only P error)).on s = (x apply').on s := by
    refine (hx.same_or_broken fun e setting t => ?_).resolve_right hn
    by_cases hP : P ⟨e, setting, t⟩
    · exact .inl ((Applier.on_only hP).trans (h ⟨e, setting, t⟩ hP))
    · exact .inr (congrArg Prod.fst (Applier.on_only_of_not hP))
  refine hne ((hsame other fun made hP => ?_).symm.trans (hsame apply fun _ _ => rfl))
  exact (hother _ _ _ fun heq => hnot (heq ▸ hP)).symm

end Packrat

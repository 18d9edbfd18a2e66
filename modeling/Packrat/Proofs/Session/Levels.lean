/-
Levels of nesting. Whatever comes of an expression, and of suspended work that is resumed, the session is back
on the level on which it was begun, and under the mark of the rule that was entered last before. That is how
what an operator tries one after the other is all begun on one level, and in every parse the depth of a call and
the levels of nesting it has left make up the limit.
-/
import Packrat.Proofs.Recursion.Limit
import Packrat.Proofs.Session.Passage

namespace Packrat

/-! ## Coming back -/

/-- The nesting is as deep as before, and the same rule is the one entered last, at the same place. -/
structure Session.Aligned (s t : Session) : Prop where
  depth : t.depth = s.depth
  entered : t.entered = s.entered

namespace Session.Aligned

variable {job : Job} {s t u : Session}

theorem refl (s : Session) : s.Aligned s := ⟨rfl, rfl⟩

theorem trans (h : s.Aligned t) (h' : t.Aligned u) : s.Aligned u :=
  ⟨h'.depth.trans h.depth, h'.entered.trans h.entered⟩

theorem note {entry : Note} (h : s.Aligned t) : s.Aligned ((Eval.note entry).on t).2 := ⟨h.depth, h.entered⟩

theorem count {update : Counts → Counts} (h : s.Aligned t) : s.Aligned ((Eval.count job update).on t).2 := by
  rw [Eval.on_count]
  split <;> exact ⟨h.depth, h.entered⟩

theorem emit {event : Event} (h : s.Aligned t) : s.Aligned ((Eval.emit job event).on t).2 := by
  rw [Eval.on_emit]
  split <;> exact ⟨h.depth, h.entered⟩

/-- What is done one level deeper, and under its own mark, is left for the level and the mark outside. -/
theorem back {rule : Option String} {location : Location} (h : (s.deeper job rule location).Aligned t) :
    s.Aligned (t.back rule s) := by
  refine ⟨?_, ?_⟩
  · show t.depth - 1 = s.depth
    rw [h.depth]
    rfl
  · show (if rule.isSome then s.entered else t.entered) = s.entered
    -- without a rule there is no mark of its own
    cases rule with
    | some name => rfl
    | none => exact h.entered

end Session.Aligned

/-- No step of a parse leaves the session on another level or under another mark. -/
theorem Job.aligns (job : Job) : Passage job Session.Aligned where
  refl := .refl
  trans := .trans
  answered s := by
    rw [Eval.on_bind]
    exact .emit (.count (.refl s))
  missed s := .count (.refl s)
  recorded _ := ⟨rfl, rfl⟩
  reentered s := by
    simp only [Eval.reportReentry, Eval.on_bind]
    exact .emit (.count (.note (.refl s)))
  failed s := by
    rw [Eval.on_bind]
    exact .count (.emit (.refl s))
  resumed s := by
    simp only [Eval.on_bind]
    exact .count (.emit (.note (.refl s)))
  grown s := by
    rw [Eval.on_bind]
    exact .note (.count (.refl s))
  nested hwork s := by
    rw [on_nested]
    exact .back (hwork _)
  entered hwork s := by
    simp only [Eval.on_bind, Eval.on_pure]
    exact .emit (.trans (.count (.emit (.refl s))) (hwork _))

/-- In whatever session an expression is tried or suspended work is resumed, and whatever comes of it, the session
is afterwards on the same level and under the same mark. -/
theorem Job.levels_restored (job : Job) (levels : Nat) (s : Session) :
    (∀ e setting, s.Aligned ((applyWithin job levels e setting).on s).2) ∧
      ∀ suspension attempt, s.Aligned ((Suspension.resume job (applyWithin job levels) suspension attempt).on s).2 :=
  ⟨fun e setting => job.aligns.applyWithin levels e setting s,
    fun _ _ => job.aligns.resume (job.aligns.applyWithin levels) s⟩

/-! ## The depth of a call -/

namespace Procedure.Flat

variable {α : Type} [Breakable α] {x : Procedure α} {apply : Applier} {s : Session} {call : Call}

/-- A flat procedure leaves the depth as it is if what it tries does. -/
theorem depth (hx : x.Flat) (h : ∀ e setting s, ((apply e setting).on s).2.depth = s.depth) :
    ((x apply).on s).2.depth = s.depth := by
  induction hx generalizing s with
  | level hx => exact (hx s).1
  | attempt e setting => exact h e setting s
  | behind hk _ ih =>
    rw [Eval.on_bind]
    exact (ih _).trans (hk s).1
  | bind _ _ _ ihx ihf =>
    rw [Eval.on_bind]
    exact (ihf _).trans ihx

/-- What a flat procedure calls for is begun on the level of the procedure. -/
theorem depth_of_calls (hx : x.Flat) (h : ∀ e setting s, ((apply e setting).on s).2.depth = s.depth)
    (hcall : x.Calls apply s call) : call.session.depth = s.depth := by
  induction hx generalizing s with
  | level hx =>
    obtain ⟨_, -, hne⟩ := hcall
    exact absurd rfl hne
  | attempt e setting =>
    obtain ⟨other, hsame, hne⟩ := hcall
    by_cases hthis : (⟨e, setting, s⟩ : Call) = call
    · rw [← hthis]
    · exact absurd (hsame e setting s hthis) hne
  | @behind _ _ _ k f hk _ ih =>
    obtain ⟨other, hsame, hne⟩ := hcall
    rw [Eval.on_bind, Eval.on_bind] at hne
    exact (ih _ ⟨other, hsame, hne⟩).trans (hk s).1
  | @bind _ _ _ _ x f hx _ _ ihx ihf =>
    obtain ⟨other, hsame, hne⟩ := hcall
    by_cases heq : (x other).on s = (x apply).on s
    -- the first step comes to the same, so the call is made in the second
    · rw [Eval.on_bind, Eval.on_bind, heq] at hne
      exact (ihf _ ⟨other, hsame, hne⟩).trans (hx.depth h)
    · exact ihx ⟨other, hsame, heq⟩

end Procedure.Flat

/-- In the course of a parse, as many levels of nesting are left to a call as the limit is above its depth. -/
theorem Job.Applies.depth_add_levels {job : Job} {root : Expr} {levels : Nat} {call : Call}
    (h : job.Applies root levels call) : call.session.depth + levels = job.options.depthLimit := by
  induction h with
  | root => exact Nat.zero_add _
  | @inner levels outer next _ hcalls ih =>
    obtain ⟨-, -, hcalls⟩ := calls_evaluate hcalls
    have hdepth : next.session.depth = outer.session.depth + 1 := (Procedure.Flat.evaluate _ _).depth_of_calls
      (fun e setting s => (job.aligns.applyWithin levels e setting s).depth) hcalls
    omega

end Packrat

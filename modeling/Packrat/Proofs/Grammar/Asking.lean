/-
What the trying of an expression asks for: the parts of the expression, the body of a rule under the
skipper of that rule and, behind a part of a sequence or of a repetition that fails, the skipper in
effect. All this is among finitely many expressions and ways of skipping. Where no expression asks for
itself again, it is settled beforehand how deep that goes.
-/
import Mathlib.Data.Set.Finite.Lattice
import Mathlib.Data.Set.Finite.List
import Mathlib.Logic.Relation
import Mathlib.Order.WellFounded
import Packrat.Proofs.Grammar.Modes
import Packrat.Proofs.Recursion.Opening

namespace Packrat

open Relation

/-! ## All expressions -/

namespace Expr

mutual

/-- An expression and all that it consists of. -/
def all : Expr → List Expr
  | .sequence parts => .sequence parts :: allOf parts
  | .merge parts => .merge parts :: allOf parts
  | .choice alternatives => .choice alternatives :: allOf alternatives
  | .repetition body bounds fallback => .repetition body bounds fallback :: body.all
  | .ahead body => .ahead body :: body.all
  | .notAhead body => .notAhead body :: body.all
  | .omission body => .omission body :: body.all
  | .literal text => [.literal text]
  | .pattern p => [.pattern p]
  | .rule name => [.rule name]
  | .external key => [.external key]

/-- Some expressions and all that they consist of. -/
def allOf : List Expr → List Expr
  | [] => []
  | e :: rest => e.all ++ allOf rest

end

theorem mem_allOf {e : Expr} {es : List Expr} : e ∈ allOf es ↔ ∃ e' ∈ es, e ∈ e'.all := by
  induction es with
  | nil => simp [allOf]
  | cons e' rest ih => simp [allOf, ih]

/-- An expression is among all that it consists of, and otherwise among all of one of its parts. -/
theorem mem_all {e e' : Expr} : e ∈ e'.all ↔ e = e' ∨ ∃ part ∈ e'.parts, e ∈ part.all := by
  cases e' <;> simp [all, parts, mem_allOf]

/-- All of a part is part of all. -/
theorem all_part_subset {e part : Expr} (hp : part ∈ e.parts) (top : Expr) (he : e ∈ top.all) : part.all ⊆ top.all := by
  intro e' he'
  rcases mem_all.1 he with rfl | ⟨p, hm, he⟩
  · exact mem_all.2 (.inr ⟨part, hp, he'⟩)
  · exact mem_all.2 (.inr ⟨p, hm, all_part_subset hp p he he'⟩)
termination_by sizeOf top
decreasing_by exact sizeOf_part hm

/-- Whether input is skipped where a part of the expression fails. -/
def skips : Expr → Bool
  | .sequence parts | .merge parts => !parts.isEmpty
  | .repetition .. => true
  | _ => false

theorem skips_iff {e : Expr} : e.skips = true ↔ e.Skips := by
  cases e <;> simp [skips, Skips]

end Expr

namespace Grammar

/-- All that a grammar has. -/
def exprs (g : Grammar) : List Expr :=
  .rule g.start :: g.rules.flatMap (·.2.all) ++ g.skipper.elim [] Expr.all ++
    g.overrides.flatMap fun (_, skipper) => skipper.elim [] Expr.all

/-- The ways of skipping that a grammar knows: its own and those of the rules that override it. -/
def modes (g : Grammar) : List SkipMode :=
  .standard :: g.overrides.map fun (_, skipper) => skipper.elim .off .special

/-- The skipper in effect by a grammar. -/
def skipperIn (g : Grammar) : SkipMode → Option Expr
  | .standard => g.skipper
  | .special skipper => some skipper
  | .off => none

/-- The way of skipping inside a rule: the rule's own, or else the one around it. -/
def modeIn (g : Grammar) (rule : String) (around : SkipMode) : SkipMode :=
  match g.override? rule with
  | some (some skipper) => .special skipper
  | some none => .off
  | none => around

end Grammar

theorem Job.skipper?_eq (job : Job) (mode : SkipMode) : job.skipper? mode = job.grammar.skipperIn mode := by
  cases mode <;> rfl

theorem Job.skippingIn_eq (job : Job) (rule : String) (around : SkipMode) :
    job.skippingIn rule around = job.grammar.modeIn rule around := rfl

namespace Grammar

variable {g : Grammar} {e : Expr} {mode : SkipMode} {rule : String}

theorem Has.mem_exprs (h : g.Has e) : e ∈ g.exprs := by
  have hall (e : Expr) : e ∈ e.all := Expr.mem_all.2 (.inl rfl)
  -- what the grammar has is in one of its definitions, and so are its parts
  suffices ∃ top : Expr, e ∈ top.all ∧ top.all ⊆ g.exprs by
    obtain ⟨top, he, ht⟩ := this
    exact ht he
  unfold exprs
  induction h with
  | start => exact ⟨.rule g.start, hall _, by simp [Expr.all]⟩
  | body hb =>
    refine ⟨_, hall _, fun e he => List.mem_append_left _ (List.mem_append_left _ (List.mem_cons_of_mem _ ?_))⟩
    exact List.mem_flatMap.2 ⟨_, mem_of_lookup hb, he⟩
  | skipper hs =>
    refine ⟨_, hall _, fun e he => List.mem_append_left _ (List.mem_append_right _ ?_)⟩
    rw [hs]
    exact he
  | override ho =>
    exact ⟨_, hall _, fun e he => List.mem_append_right _ (List.mem_flatMap.2 ⟨_, mem_of_lookup ho, he⟩)⟩
  | part _ hp ih =>
    obtain ⟨top, he, ht⟩ := ih
    have hsub := Expr.all_part_subset hp top he
    exact ⟨top, hsub (hall _), ht⟩

/-! ## Asking -/

/-- Trying the first expression under its way of skipping can mean to try the second one under that of
its own. -/
inductive Asks (g : Grammar) : Expr × SkipMode → Expr × SkipMode → Prop
  | part {e part : Expr} {mode : SkipMode} : part ∈ e.parts → g.Asks (e, mode) (part, mode)
  | body {name : String} {body : Expr} {mode : SkipMode} : g.rule? name = some body →
    g.Asks (.rule name, mode) (body, g.modeIn name mode)
  | skipper {e s : Expr} {mode : SkipMode} : e.Skips → g.skipperIn mode = some s → g.Asks (e, mode) (s, mode)

/-- Whatever is tried in the course of a parse. -/
def Reaches (g : Grammar) (node : Expr × SkipMode) : Prop := ReflTransGen g.Asks (.rule g.start, .standard) node

theorem modeIn_mem (h : mode ∈ g.modes) : g.modeIn rule mode ∈ g.modes := by
  have hmem {skipper : Option Expr} (ho : g.override? rule = some skipper) : skipper.elim .off .special ∈ g.modes :=
    List.mem_cons_of_mem _ (List.mem_map.2 ⟨_, mem_of_lookup ho, rfl⟩)
  unfold modeIn
  split
  · next ho => exact hmem ho
  · next ho => exact hmem ho
  · exact h

/-- A rule that is entered inside itself skips as it did. -/
@[simp] theorem modeIn_modeIn : g.modeIn rule (g.modeIn rule mode) = g.modeIn rule mode := by
  unfold modeIn
  split <;> rfl

theorem Reaches.has {node : Expr × SkipMode} (h : g.Reaches node) : g.Has node.1 ∧ g.Mode node.2 ∧ node.2 ∈ g.modes := by
  -- what a job skips is a matter of its grammar
  let job : Job := ⟨[], g, .standard, fun _ _ _ => .ok .nil, 0⟩
  induction h with
  | refl => exact ⟨.start, .standard, List.mem_cons_self⟩
  | tail _ hasks ih =>
    obtain ⟨he, hm, hmem⟩ := ih
    cases hasks with
    | part hp => exact ⟨he.part hp, hm, hmem⟩
    | @body name body mode hb =>
      have hm : job.grammar.Mode mode := hm
      exact ⟨.body hb, hm.skippingIn name, modeIn_mem hmem⟩
    | @skipper e s mode hskips hs =>
      have hm : job.grammar.Mode mode := hm
      refine ⟨hm.has ?_, hm, hmem⟩
      rw [Job.skipper?_eq]
      exact hs

/-- Whatever an expression asks for. -/
def askedBy (g : Grammar) : Expr × SkipMode → List (Expr × SkipMode)
  | (.rule name, mode) => (g.rule? name).toList.map (·, g.modeIn name mode)
  | (e, mode) => e.parts.map (·, mode) ++ (if e.skips then g.skipperIn mode else none).toList.map (·, mode)

theorem mem_askedBy {node next : Expr × SkipMode} : next ∈ g.askedBy node ↔ g.Asks node next := by
  obtain ⟨e, mode⟩ := node
  constructor
  · intro h
    cases e with
    | rule name =>
      simp only [askedBy, List.mem_map, Option.mem_toList] at h
      obtain ⟨body, hb, rfl⟩ := h
      exact .body hb
    | _ =>
      simp only [askedBy, List.mem_append, List.mem_map, Option.mem_toList] at h
      rcases h with ⟨part, hp, rfl⟩ | ⟨s, hs, rfl⟩
      · exact .part hp
      · obtain ⟨hskips, hs⟩ := Option.ite_none_right_eq_some.1 hs
        exact .skipper (Expr.skips_iff.1 hskips) hs
  · intro h
    cases h with
    | part hp => cases e <;> simp_all [askedBy, Expr.parts]
    | body hb => simp [askedBy, hb]
    | skipper hskips hs =>
      have hskips := Expr.skips_iff.2 hskips
      cases e <;> simp_all [askedBy, Expr.skips]

/-! ## Height -/

/-- No expression that is tried in the course of a parse asks for itself again. -/
def Acyclic (g : Grammar) : Prop := ∀ node, g.Reaches node → ¬ TransGen g.Asks node node

/-- Whatever is asked for, and asked for by that, and so on, is no more than so many levels deep. -/
def Height (g : Grammar) : Nat → Expr × SkipMode → Prop
  | 0, _ => False
  | n + 1, node => ∀ next, g.Asks node next → g.Height n next

variable {node : Expr × SkipMode}

theorem Height.mono {n m : Nat} (h : g.Height n node) (hle : n ≤ m) : g.Height m node := by
  induction n generalizing m node with
  | zero => exact h.elim
  | succ n ih =>
    obtain ⟨m, rfl⟩ := Nat.exists_eq_add_of_le' (Nat.lt_of_lt_of_le n.succ_pos hle)
    exact fun next hasks => ih (h next hasks) (by omega)

instance Height.decidable : ∀ (n : Nat) (node : Expr × SkipMode), Decidable (g.Height n node)
  | 0, _ => inferInstanceAs (Decidable False)
  | n + 1, node =>
    have := Height.decidable n
    decidable_of_iff (∀ next ∈ g.askedBy node, g.Height n next) ⟨fun h next hasks => h next (mem_askedBy.2 hasks),
      fun h next hm => h next (mem_askedBy.1 hm)⟩

/-- What has a height does not ask for itself. -/
theorem Height.not_cycle {n : Nat} (h : g.Height n node) : ¬ TransGen g.Asks node node := by
  intro hc
  induction n generalizing node with
  | zero => exact h
  | succ n ih =>
    -- the cycle goes through the next expression as well, which has less height
    obtain ⟨next, hasks, hback⟩ := TransGen.head'_iff.1 hc
    exact ih (h next hasks) (TransGen.tail' hback hasks)

theorem Acyclic.of_height {n : Nat} (h : g.Height n (.rule g.start, .standard)) : g.Acyclic := by
  intro node hr
  suffices ∃ n, g.Height n node from this.elim fun _ hn => hn.not_cycle
  induction hr with
  | refl => exact ⟨n, h⟩
  | tail _ hasks ih =>
    obtain ⟨n, hn⟩ := ih
    cases n with
    | zero => exact hn.elim
    | succ n => exact ⟨n, hn _ hasks⟩

/-- Without cycles, all that is tried has a height. -/
theorem Acyclic.exists_height (ha : g.Acyclic) : ∃ n, g.Height n (.rule g.start, .standard) := by
  let Node := {node : Expr × SkipMode // g.Reaches node}
  let asks (a b : Node) : Prop := g.Asks a.1 b.1
  have hfinite : Finite Node := by
    refine Set.Finite.subset (List.finite_toSet (g.exprs ×ˢ g.modes)) fun node h => ?_
    obtain ⟨he, -, hm⟩ := Reaches.has h
    exact List.mem_product.2 ⟨he.mem_exprs, hm⟩
  have hwf : WellFounded (flip asks) := by
    have hwf : WellFounded (TransGen (flip asks)) := by
      have : Std.Irrefl (TransGen (flip asks)) := ⟨fun a h => by
        refine ha a.1 a.2 ?_
        exact TransGen.lift Subtype.val (fun _ _ h => h) _ _ (transGen_swap.1 h)⟩
      exact Finite.wellFounded_of_trans_of_irrefl _
    exact Subrelation.wf TransGen.single hwf
  suffices ∀ a : Node, ∃ n, g.Height n a.1 from this ⟨_, .refl⟩
  intro a
  induction a using hwf.induction with
  | _ a ih =>
    -- of the finitely many expressions that it asks for, the highest one decides
    choose! height hheight using ih
    obtain ⟨n, hn⟩ := (Set.finite_range height).bddAbove
    refine ⟨n + 1, fun next hasks => ?_⟩
    have hnext : g.Reaches next := ReflTransGen.tail a.2 hasks
    exact (hheight ⟨next, hnext⟩ hasks).mono (hn ⟨_, rfl⟩)

end Grammar

end Packrat

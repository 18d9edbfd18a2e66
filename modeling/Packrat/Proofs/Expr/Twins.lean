/-
Twins: expressions that differ at most in where their fallbacks stand. A fallback is put where a
repetition began, so twins that are tried in the same place come to the same. Where all fallbacks are
empty lists, expressions of equal structure are twins.
-/
import Packrat.Expr.Display
import Packrat.Proofs.Expr.Content
import Packrat.Proofs.Grammar.Parts
import Packrat.Parse.Remembering

namespace Packrat

namespace Tree

theorem movedTo_movedTo (t : Tree) (a b : Span) : (t.movedTo a).movedTo b = t.movedTo b := by
  cases t <;> rfl

/-- Of an empty list only the place can be moved. -/
theorem movedTo_eq_content {t : Tree} (h : t.isNil = true) : t.movedTo (.empty .origin) = t.content := by
  cases t with
  | list place items =>
    cases items with
    | nil => rfl
    | cons item items => cases h
  | text | found | node => cases h

end Tree

/-! ## Expressions -/

namespace Expr

mutual

/-- An expression with its fallbacks put at the origin. -/
def unplaced : Expr → Expr
  | .sequence parts => .sequence (unplacedAll parts)
  | .merge parts => .merge (unplacedAll parts)
  | .choice alternatives => .choice (unplacedAll alternatives)
  | .repetition body bounds fallback => .repetition body.unplaced bounds (fallback.map (·.movedTo (.empty .origin)))
  | .ahead body => .ahead body.unplaced
  | .notAhead body => .notAhead body.unplaced
  | .omission body => .omission body.unplaced
  | .literal text => .literal text
  | .pattern p => .pattern p
  | .rule name => .rule name
  | .external key => .external key

/-- Expressions with their fallbacks put at the origin. -/
def unplacedAll : List Expr → List Expr
  | [] => []
  | e :: rest => e.unplaced :: unplacedAll rest

end

theorem unplacedAll_eq_map : ∀ es : List Expr, unplacedAll es = es.map unplaced
  | [] => rfl
  | e :: rest => congrArg (e.unplaced :: ·) (unplacedAll_eq_map rest)

mutual

theorem display_unplaced : ∀ e : Expr, e.unplaced.display = e.display
  | .sequence parts | .merge parts | .choice parts => by simp only [unplaced, display, displayAll_unplacedAll parts]
  | .repetition body _ _ | .ahead body | .notAhead body | .omission body => by
    simp only [unplaced, display, display_unplaced body]
  | .literal _ | .pattern _ | .rule _ | .external _ => by simp only [unplaced]

theorem displayAll_unplacedAll : ∀ es : List Expr, displayAll (unplacedAll es) = displayAll es
  | [] => rfl
  | e :: rest => by simp only [unplacedAll, displayAll, display_unplaced e, displayAll_unplacedAll rest]

end

theorem display_eq_of_unplaced_eq {a b : Expr} (h : a.unplaced = b.unplaced) : a.display = b.display := by
  rw [← display_unplaced a, h, display_unplaced b]

/-- What an expression falls back to, if anything, is an empty list. -/
def FallsToNil (e : Expr) : Prop := ∀ t, e.fallback? = some t → t.isNil = true

mutual

/-- Without other fallbacks than empty lists, only structure is left. -/
theorem unplaced_eq_content : ∀ {e : Expr}, e.Throughout FallsToNil → e.unplaced = e.content
  | .sequence _, h => congrArg sequence (unplacedAll_eq_contentAll fun _ hp => h.part hp)
  | .merge _, h => congrArg merge (unplacedAll_eq_contentAll fun _ hp => h.part hp)
  | .choice _, h => congrArg choice (unplacedAll_eq_contentAll fun _ hp => h.part hp)
  | .repetition body bounds fallback, h => by
    have hfallback : fallback.map (·.movedTo (.empty .origin)) = fallback.map Tree.content := by
      cases fallback with
      | none => rfl
      | some t => exact congrArg some (Tree.movedTo_eq_content (h.here t rfl))
    rw [unplaced, content, unplaced_eq_content (e := body) (h.part List.mem_cons_self), hfallback]
  | .ahead body, h => congrArg ahead (unplaced_eq_content (e := body) (h.part List.mem_cons_self))
  | .notAhead body, h => congrArg notAhead (unplaced_eq_content (e := body) (h.part List.mem_cons_self))
  | .omission body, h => congrArg omission (unplaced_eq_content (e := body) (h.part List.mem_cons_self))
  | .literal _, _ | .pattern _, _ | .rule _, _ | .external _, _ => by simp only [unplaced, content]

theorem unplacedAll_eq_contentAll : ∀ {es : List Expr}, (∀ e ∈ es, e.Throughout FallsToNil) →
    unplacedAll es = contentAll es
  | [], _ => rfl
  | e :: rest, h => by
    rw [unplacedAll, contentAll, unplaced_eq_content (h e List.mem_cons_self),
      unplacedAll_eq_contentAll fun e he => h e (List.mem_cons_of_mem _ he)]

end

end Expr

/-- What a textual grammar has falls back to nothing but empty lists. -/
theorem Grammar.Textual.fallsToNil {g : Grammar} {e : Expr} (hg : g.Textual) (he : g.Has e) :
    e.Throughout Expr.FallsToNil := by
  refine he.throughout fun e he t ht => ?_
  cases e with
  | repetition body bounds fallback =>
    cases ht
    exact hg.fallbacks _ _ t he
  | _ => cases ht

/-! ## Settings -/

/-- A way of skipping with the fallbacks in it put at the origin. -/
def SkipMode.unplaced : SkipMode → SkipMode
  | .special skipper => .special skipper.unplaced
  | mode => mode

/-- Expressions that differ at most in where their fallbacks stand, at one position and under ways of
skipping that differ no more than that, or not at all if they are to be identical. -/
structure Twins (identical : Prop) (e : Expr) (setting : Setting) (e' : Expr) (setting' : Setting) : Prop where
  expr : e.unplaced = e'.unplaced
  position : setting.position = setting'.position
  skipping : setting.skipping.unplaced = setting'.skipping.unplaced
  identity : identical → e = e' ∧ setting = setting'

namespace Twins

variable {identical : Prop} {e e' : Expr} {setting setting' : Setting}

theorem refl (e : Expr) (setting : Setting) : Twins identical e setting e setting := ⟨rfl, rfl, rfl, fun _ => ⟨rfl, rfl⟩⟩

theorem location (h : Twins identical e setting e' setting') : setting.location = setting'.location :=
  congrArg Position.location h.position

end Twins

/-- Under twin ways of skipping, twins are skipped. -/
theorem skipper?_unplaced {job : Job} {mode mode' : SkipMode} (h : mode.unplaced = mode'.unplaced) :
    (job.skipper? mode).map Expr.unplaced = (job.skipper? mode').map Expr.unplaced := by
  cases mode <;> cases mode' <;> simp_all [SkipMode.unplaced, Job.skipper?]

end Packrat

/-
What counts as the same. Trees, expressions and questions are the same when their contents are
equal, that is, what is left of them once places and the ways in which text was matched are
forgotten. So sameness is an equivalence.
-/
import Packrat.Parse.Attempt

namespace Packrat

/-! ## Trees -/

namespace Tree

/-- Stands nowhere in particular. -/
def nowhere : Placement := .own (.empty .origin)

mutual

/-- A tree without its places. -/
def content : Tree → Tree
  | .text _ chars => .text nowhere chars
  | .found _ groups => .text nowhere (matchedText groups)
  | .list _ items => .list nowhere (contentAll items)
  | .node _ lineage fields => .node nowhere lineage (contentFields fields)

/-- Trees without their places. -/
def contentAll : List Tree → List Tree
  | [] => []
  | t :: rest => t.content :: contentAll rest

/-- Fields without the places of their trees. -/
def contentFields : List (String × Tree) → List (String × Tree)
  | [] => []
  | (name, t) :: rest => (name, t.content) :: contentFields rest

end

mutual

theorem same_iff : ∀ {t u : Tree}, t.same u = true ↔ t.content = u.content
  | .text .., u => by cases u <;> simp [same, content]
  | .found .., u => by cases u <;> simp [same, content]
  | .list _ items, u => by
    cases u with
    | list _ items' => simp [same, content, sameAll_iff]
    | text | found | node => simp [same, content]
  | .node _ lineage fields, u => by
    cases u with
    | node _ lineage' fields' => simp [same, content, sameFields_iff]
    | text | found | list => simp [same, content]

theorem sameAll_iff : ∀ {ts us : List Tree}, sameAll ts us = true ↔ contentAll ts = contentAll us
  | [], us => by cases us <;> simp [sameAll, contentAll]
  | t :: ts, us => by
    cases us with
    | nil => simp [sameAll, contentAll]
    | cons u us => simp [sameAll, contentAll, same_iff, sameAll_iff]

theorem sameFields_iff : ∀ {ts us : List (String × Tree)}, sameFields ts us = true ↔ contentFields ts = contentFields us
  | [], us => by cases us <;> simp [sameFields, contentFields]
  | (name, t) :: ts, us => by
    cases us with
    | nil => simp [sameFields, contentFields]
    | cons u us => simp [sameFields, contentFields, same_iff, sameFields_iff, and_assoc]

end

end Tree

/-! ## Expressions -/

namespace Expr

mutual

/-- An expression without the places of its fallbacks. -/
def content : Expr → Expr
  | .sequence parts => .sequence (contentAll parts)
  | .merge parts => .merge (contentAll parts)
  | .choice alternatives => .choice (contentAll alternatives)
  | .repetition body bounds fallback => .repetition body.content bounds (fallback.map Tree.content)
  | .ahead body => .ahead body.content
  | .notAhead body => .notAhead body.content
  | .omission body => .omission body.content
  | .literal text => .literal text
  | .pattern p => .pattern p
  | .rule name => .rule name
  | .external key => .external key

/-- Expressions without the places of their fallbacks. -/
def contentAll : List Expr → List Expr
  | [] => []
  | e :: rest => e.content :: contentAll rest

end

theorem sameFallback_iff {a b : Option Tree} : sameFallback a b = true ↔ a.map Tree.content = b.map Tree.content := by
  cases a <;> cases b <;> simp [sameFallback, Tree.same_iff]

mutual

theorem same_iff : ∀ {a b : Expr}, a.same b = true ↔ a.content = b.content
  | .literal _, b | .rule _, b | .external _, b => by cases b <;> simp [same, content]
  | .pattern p, b => by
    cases b with
    | pattern q =>
      have : p = q ↔ p.source = q.source := ⟨fun h => by rw [h], Pattern.ext_source⟩
      simp [same, content, this]
    | _ => simp [same, content]
  | .sequence as, b => by cases b <;> simp [same, content, sameAll_iff]
  | .merge as, b => by cases b <;> simp [same, content, sameAll_iff]
  | .choice as, b => by cases b <;> simp [same, content, sameAll_iff]
  | .repetition a bounds fallback, b => by
    cases b with
    | repetition b bounds' fallback' =>
      simp only [same, content, Bool.and_eq_true, beq_iff_eq, same_iff, sameFallback_iff, repetition.injEq]
      exact ⟨fun ⟨⟨h1, h2⟩, h3⟩ => ⟨h2, h1, h3⟩, fun ⟨h2, h1, h3⟩ => ⟨⟨h1, h2⟩, h3⟩⟩
    | _ => simp [same, content]
  | .ahead a, b => by cases b <;> simp [same, content, same_iff]
  | .notAhead a, b => by cases b <;> simp [same, content, same_iff]
  | .omission a, b => by cases b <;> simp [same, content, same_iff]

theorem sameAll_iff : ∀ {as bs : List Expr}, sameAll as bs = true ↔ contentAll as = contentAll bs
  | [], bs => by cases bs <;> simp [sameAll, contentAll]
  | a :: as, bs => by
    cases bs with
    | nil => simp [sameAll, contentAll]
    | cons b bs => simp [sameAll, contentAll, same_iff, sameAll_iff]

end

theorem same_self (e : Expr) : e.same e = true := same_iff.2 rfl

end Expr

/-! ## Questions -/

/-- A skip mode without the places of fallbacks. -/
def SkipMode.content : SkipMode → SkipMode
  | .special skipper => .special skipper.content
  | mode => mode

theorem SkipMode.same_iff {a b : SkipMode} : a.same b = true ↔ a.content = b.content := by
  cases a <;> cases b <;> simp [same, content, Expr.same_iff]

/-- A question without the places of fallbacks. -/
def Question.content (q : Question) : Question := ⟨q.expr.content, q.location, q.skipping.content⟩

theorem Question.beq_iff {p q : Question} : (p == q) = true ↔ p.content = q.content := by
  show (p.location == q.location && p.expr.same q.expr && p.skipping.same q.skipping) = true ↔ _
  simp only [Bool.and_eq_true, beq_iff_eq, Expr.same_iff, SkipMode.same_iff, content, Question.mk.injEq]
  exact ⟨fun ⟨⟨h1, h2⟩, h3⟩ => ⟨h2, h1, h3⟩, fun ⟨h2, h1, h3⟩ => ⟨⟨h1, h2⟩, h3⟩⟩

instance : EquivBEq Question where
  rfl := Question.beq_iff.2 rfl
  symm h := Question.beq_iff.2 (Question.beq_iff.1 h).symm
  trans h k := Question.beq_iff.2 ((Question.beq_iff.1 h).trans (Question.beq_iff.1 k))

end Packrat

/-
Equality is coherent. Equal trees write the same to a hash and have the same JSON text, since both depend
on content alone. Expressions keep a hash of their structure, and their comparison asks first whether they
are one and the same in memory and then whether the hashes agree, at every depth; it comes to what comparing
structure alone comes to, since equal expressions have equal hashes whatever function they are hashed with.
-/
import Mathlib.Data.List.Forall2
import Packrat.Expr.Equality
import Packrat.Proofs.Expr.Content
import Packrat.Proofs.Grammar.Parts
import Packrat.Tree.Json

namespace Packrat

/-! ## Trees -/

namespace Tree

theorem length_contentAll (ts : List Tree) : (contentAll ts).length = ts.length := by
  induction ts with
  | nil => rfl
  | cons t rest ih => exact congrArg (· + 1) ih

theorem length_contentFields (fields : List (String × Tree)) : (contentFields fields).length = fields.length := by
  induction fields with
  | nil => rfl
  | cons field rest ih => exact congrArg (· + 1) ih

mutual

/-- A tree writes its content to a hash. -/
theorem hashItems_content : ∀ t : Tree, t.content.hashItems = t.hashItems
  | .text .. | .found .. => rfl
  | .list _ items => by rw [content, hashItems, hashItems, length_contentAll, hashItemsAll_content]
  | .node _ _ fields => by rw [content, hashItems, hashItems, length_contentFields, hashItemsFields_content]

theorem hashItemsAll_content : ∀ ts : List Tree, hashItemsAll (contentAll ts) = hashItemsAll ts
  | [] => rfl
  | t :: rest => by rw [contentAll, hashItemsAll, hashItemsAll, hashItems_content, hashItemsAll_content]

theorem hashItemsFields_content : ∀ fields : List (String × Tree), hashItemsFields (contentFields fields) = hashItemsFields fields
  | [] => rfl
  | (_, t) :: rest => by rw [contentFields, hashItemsFields, hashItemsFields, hashItems_content, hashItemsFields_content]

end

mutual

/-- The JSON text of a tree shows its content. -/
theorem json_content : ∀ t : Tree, t.content.json = t.json
  | .text .. | .found .. => rfl
  | .list _ items => by rw [content, json, json, jsonItems_content]
  | .node _ _ fields => by rw [content, json, json, jsonFields_content]

theorem jsonItems_content : ∀ ts : List Tree, jsonItems (contentAll ts) = jsonItems ts
  | [] => rfl
  | t :: rest => by rw [contentAll, jsonItems, jsonItems, json_content, jsonItems_content]

theorem jsonFields_content : ∀ fields : List (String × Tree), jsonFields (contentFields fields) = jsonFields fields
  | [] => rfl
  | (_, t) :: rest => by rw [contentFields, jsonFields, jsonFields, json_content, jsonFields_content]

end

variable {t u : Tree}

theorem hashItems_eq_of_same (h : t.same u = true) : t.hashItems = u.hashItems := by
  rw [← hashItems_content t, same_iff.1 h, hashItems_content]

theorem json_eq_of_same (h : t.same u = true) : t.json = u.json := by
  rw [← json_content t, same_iff.1 h, json_content]

theorem same_equivalence : Equivalence fun t u : Tree => t.same u = true where
  refl _ := same_iff.2 rfl
  symm h := same_iff.2 (same_iff.1 h).symm
  trans h k := same_iff.2 ((same_iff.1 h).trans (same_iff.1 k))

end Tree

/-! ## Expressions -/

namespace Expr

theorem same_equivalence : Equivalence fun p q : Expr => p.same q = true where
  refl _ := same_iff.2 rfl
  symm h := same_iff.2 (same_iff.1 h).symm
  trans h k := same_iff.2 ((same_iff.1 h).trans (same_iff.1 k))

variable {hasher : List HashItem → UInt64}

mutual

/-- The hash of an expression is that of its content. -/
theorem hashWith_content : ∀ e : Expr, e.content.hashWith hasher = e.hashWith hasher
  | .sequence parts | .merge parts | .choice parts => by rw [content, hashWith, hashWith, hashItemsOf_contentAll]
  | .repetition body _ none => by
    rw [content, Option.map_none, hashWith, hashWith, hashWith_content body]
  | .repetition body _ (some fallback) => by
    rw [content, Option.map_some, hashWith, hashWith, hashWith_content body, Tree.hashItems_content]
  | .ahead body | .notAhead body | .omission body => by rw [content, hashWith, hashWith, hashWith_content body]
  | .literal _ | .pattern _ | .rule _ | .external _ => by rw [content]

theorem hashItemsOf_contentAll : ∀ es : List Expr, hashItemsOf hasher (contentAll es) = hashItemsOf hasher es
  | [] => rfl
  | e :: rest => by rw [contentAll, hashItemsOf, hashItemsOf, hashWith_content e, hashItemsOf_contentAll rest]

end

theorem hashWith_eq_of_same {p q : Expr} (h : p.same q = true) : p.hashWith hasher = q.hashWith hasher := by
  rw [← hashWith_content p, same_iff.1 h, hashWith_content]

/-! ## Comparing structure -/

/-- Expressions built in the same way of parts that are related in order: the same texts, pattern sources, names,
bounds or matchers from outside, and fallbacks of equal content. -/
inductive Alike (related : Expr → Expr → Prop) : Expr → Expr → Prop
  | literal (text : List Char) : Alike related (.literal text) (.literal text)
  | pattern {p q : Pattern} : p.source = q.source → Alike related (.pattern p) (.pattern q)
  | rule (name : String) : Alike related (.rule name) (.rule name)
  | sequence {as bs : List Expr} : List.Forall₂ related as bs → Alike related (.sequence as) (.sequence bs)
  | merge {as bs : List Expr} : List.Forall₂ related as bs → Alike related (.merge as) (.merge bs)
  | choice {as bs : List Expr} : List.Forall₂ related as bs → Alike related (.choice as) (.choice bs)
  | repetition {a b : Expr} {bounds : Bounds} {fallback fallback' : Option Tree} : related a b →
    Option.Rel (fun t u => t.same u = true) fallback fallback' →
      Alike related (.repetition a bounds fallback) (.repetition b bounds fallback')
  | ahead {a b : Expr} : related a b → Alike related (.ahead a) (.ahead b)
  | notAhead {a b : Expr} : related a b → Alike related (.notAhead a) (.notAhead b)
  | omission {a b : Expr} : related a b → Alike related (.omission a) (.omission b)
  | external (key : Nat) : Alike related (.external key) (.external key)

/-- A comparison that comes out equal. Two references to one of the expressions in `shared` may lead to the same place
in memory, and are then equal without further comparison. Otherwise the hashes have to agree, and the
expressions to be built in the same way of parts whose comparison comes out equal. -/
inductive ComparesEqual (hasher : List HashItem → UInt64) (shared : Expr → Prop) : Expr → Expr → Prop
  | identical {e : Expr} : shared e → ComparesEqual hasher shared e e
  | structural {p q : Expr} : p.hashWith hasher = q.hashWith hasher → Alike (ComparesEqual hasher shared) p q →
    ComparesEqual hasher shared p q

theorem sameAll_iff_forall₂ {as bs : List Expr} :
    sameAll as bs = true ↔ List.Forall₂ (fun a b => a.same b = true) as bs := by
  induction as generalizing bs with
  | nil => cases bs <;> simp [sameAll]
  | cons a as ih => cases bs <;> simp [sameAll, ih]

theorem sameFallback_iff_rel {a b : Option Tree} :
    sameFallback a b = true ↔ Option.Rel (fun t u => t.same u = true) a b := by
  cases a <;> cases b <;> simp [sameFallback]

/-- Expressions are equal if they are built in the same way of equal parts. -/
theorem Alike.same {p q : Expr} (h : Alike (fun a b => a.same b = true) p q) : p.same q = true := by
  cases h with
  | literal | rule | external => exact beq_self_eq_true _
  | pattern h => exact beq_iff_eq.2 h
  | sequence h | merge h | choice h => exact sameAll_iff_forall₂.2 h
  | repetition hbody hfallback =>
    rw [Expr.same, hbody, sameFallback_iff_rel.2 hfallback, beq_self_eq_true]
    rfl
  | ahead h | notAhead h | omission h => exact h

theorem same_iff_alike {p q : Expr} : p.same q = true ↔ Alike (fun a b => a.same b = true) p q := by
  refine ⟨fun h => ?_, Alike.same⟩
  cases p <;> cases q <;> simp only [Expr.same, Bool.false_eq_true, Bool.and_eq_true, beq_iff_eq] at h
  case literal.literal => subst h; exact .literal _
  case pattern.pattern => exact .pattern h
  case rule.rule => subst h; exact .rule _
  case sequence.sequence => exact .sequence (sameAll_iff_forall₂.1 h)
  case merge.merge => exact .merge (sameAll_iff_forall₂.1 h)
  case choice.choice => exact .choice (sameAll_iff_forall₂.1 h)
  case repetition.repetition =>
    obtain ⟨⟨rfl, hbody⟩, hfallback⟩ := h
    exact .repetition hbody (sameFallback_iff_rel.1 hfallback)
  case ahead.ahead => exact .ahead h
  case notAhead.notAhead => exact .notAhead h
  case omission.omission => exact .omission h
  case external.external => subst h; exact .external _

theorem forall₂_imp_of_mem {R S : Expr → Expr → Prop} {as bs : List Expr} (h : List.Forall₂ R as bs)
    (hRS : ∀ a ∈ as, ∀ b, R a b → S a b) : List.Forall₂ S as bs := by
  induction h with
  | nil => exact .nil
  | cons hab _ ih =>
    exact .cons (hRS _ List.mem_cons_self _ hab) (ih fun a ha => hRS a (List.mem_cons_of_mem _ ha))

/-- It is the parts that have to be related. -/
theorem Alike.imp {R S : Expr → Expr → Prop} {p q : Expr} (h : Alike R p q)
    (hRS : ∀ a ∈ p.parts, ∀ b, R a b → S a b) : Alike S p q := by
  cases h with
  | literal => exact .literal _
  | pattern h => exact .pattern h
  | rule => exact .rule _
  | sequence h => exact .sequence (forall₂_imp_of_mem h hRS)
  | merge h => exact .merge (forall₂_imp_of_mem h hRS)
  | choice h => exact .choice (forall₂_imp_of_mem h hRS)
  | repetition hbody hfallback => exact .repetition (hRS _ List.mem_cons_self _ hbody) hfallback
  | ahead h => exact .ahead (hRS _ List.mem_cons_self _ h)
  | notAhead h => exact .notAhead (hRS _ List.mem_cons_self _ h)
  | omission h => exact .omission (hRS _ List.mem_cons_self _ h)
  | external => exact .external _

/-- However much is shared in memory, a comparison comes out equal for equal expressions and for no others. -/
theorem comparesEqual_iff {shared : Expr → Prop} {p q : Expr} : ComparesEqual hasher shared p q ↔ p.same q = true := by
  induction p using parts_induction generalizing q with
  | step p ih =>
    constructor
    · intro h
      cases h with
      | identical => exact same_self p
      | structural _ halike => exact (halike.imp fun a ha b hab => (ih a ha).1 hab).same
    · intro h
      exact .structural (hashWith_eq_of_same h) ((same_iff_alike.1 h).imp fun a ha b hab => (ih a ha).2 hab)

end Expr

/-- Equality of trees and of expressions is coherent. Trees are equal if their contents are, be they wherever and matched
however, and then they write the same to a hash and have the same JSON text. Expressions are equal if they are
built in the same way of equal parts, comparing them by way of their hashes tells just that, and the hashes of
equal ones are equal. -/
theorem equality_coherent :
    Equivalence (fun t u : Tree => (t == u) = true) ∧ Equivalence (fun p q : Expr => (p == q) = true) ∧
      (∀ t u : Tree, (t == u) = true ↔ t.content = u.content) ∧
      (∀ t u : Tree, (t == u) = true → t.hashItems = u.hashItems ∧ t.json = u.json) ∧
      ∀ (hasher : List HashItem → UInt64) (p q : Expr),
        ((p == q) = true ↔ p.Alike (fun a b => (a == b) = true) q) ∧
        (∀ shared, Expr.ComparesEqual hasher shared p q ↔ (p == q) = true) ∧
        ((p == q) = true → p.hashWith hasher = q.hashWith hasher) :=
  ⟨Tree.same_equivalence, Expr.same_equivalence, fun _ _ => Tree.same_iff,
    fun _ _ h => ⟨Tree.hashItems_eq_of_same h, Tree.json_eq_of_same h⟩,
    fun _ _ _ => ⟨Expr.same_iff_alike, fun _ => Expr.comparesEqual_iff, Expr.hashWith_eq_of_same⟩⟩

/-- A text equals a match of that text, wherever they stand and also as items. -/
example (p q : Placement) : (Tree.list p [.text p ['a']] == .list q [.found q [some ['a'], none]]) = true := rfl

end Packrat

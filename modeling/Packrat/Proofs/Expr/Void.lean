/-
Expressions that may hold with nothing to show for it: in silence, with their input left out, or with
a list of nothing but empty lists. This can be told from the grammar. It does not depend on the
places of fallbacks, so it is the same for expressions that count as the same.
-/
import Packrat.Proofs.Expr.Content
import Packrat.Proofs.Recursion.Escape
import Packrat.Proofs.Tree.Shape

namespace Packrat

/-- How an expression may hold with nothing to show. -/
inductive Void where
  /-- In silence, as it took nothing. -/
  | empty
  /-- In silence, as it looked ahead. -/
  | looking
  /-- With its input left out, or with a hollow result. -/
  | blank
  /-- In any of these ways. -/
  | any
deriving DecidableEq

/-- Why there is no result. -/
def Silence.void : Silence → Void
  | .tookNothing => .empty
  | .ahead | .notAhead => .looking

theorem Silence.void_cases (why : Silence) : why.void = .empty ∨ why.void = .looking := by
  cases why <;> simp [void]

/-- The expression may hold in this way. -/
inductive Voids (g : Grammar) : Void → Expr → Prop
  | any {k : Void} {e : Expr} : Voids g k e → Voids g .any e
  | ahead {body : Expr} : Voids g .looking (.ahead body)
  | notAhead {body : Expr} : Voids g .looking (.notAhead body)
  | omitted {body : Expr} : Voids g .blank (.omission body)
  | omission {body : Expr} : Voids g .looking body → Voids g .looking (.omission body)
  | never {body : Expr} {bounds : Bounds} : bounds.min = 0 → Voids g .empty (.repetition body bounds none)
  | fallback {body : Expr} {bounds : Bounds} {t : Tree} : t.Hollow → Voids g .blank (.repetition body bounds (some t))
  | rounds {k : Void} {body : Expr} {bounds : Bounds} {fallback : Option Tree} : k = .looking ∨ k = .blank →
    Voids g k body → Voids g k (.repetition body bounds fallback)
  | external {key : Nat} : Voids g .blank (.external key)
  | rule {k : Void} {name : String} {body : Expr} : g.rule? name = some body → Voids g k body → Voids g k (.rule name)
  | choice {k : Void} {e : Expr} {alternatives : List Expr} : e ∈ alternatives → Voids g k e →
    Voids g k (.choice alternatives)
  /-- A sequence of no parts is an empty list. -/
  | nothing {e : Expr} : e.chain? = some [] → Voids g .blank e
  /-- No part has anything to show, and one is not silent. -/
  | chain {e part : Expr} {parts : List Expr} : e.chain? = some parts → (∀ part ∈ parts, Voids g .any part) →
    part ∈ parts → Voids g .blank part → Voids g .blank e
  /-- No part has anything to show, and the last one is silent. -/
  | last {k : Void} {e part : Expr} {parts : List Expr} : k = .empty ∨ k = .looking → e.chain? = some parts →
    (∀ part ∈ parts, Voids g .any part) → parts.getLast? = some part → Voids g k part → Voids g k e
  /-- A rule that a suspended sequence begins with gets the result of a later alternative. -/
  | seed {m : Option String} {r : String} {e e' : Expr} {before later : List Expr} :
    g.Has (.choice (before ++ e :: later)) → SetsAside g m e → e' ∈ later → Voids g .blank e' → Voids g .blank (.rule r)

/-! ## Sameness -/

namespace Tree

theorem contentAll_eq_map (ts : List Tree) : contentAll ts = ts.map content := by
  induction ts with
  | nil => rfl
  | cons t ts ih => rw [contentAll, ih, List.map_cons]

theorem Hollow.of_content {t u : Tree} (h : t.Hollow) (hc : u.content = t.content) : u.Hollow := by
  induction h generalizing u with
  | @list place items _ ih =>
    cases u with
    | list place' items' =>
      simp only [content, list.injEq, true_and, contentAll_eq_map] at hc
      refine .list fun item hi => ?_
      obtain ⟨item', hi', he⟩ := List.mem_map.1 (hc ▸ List.mem_map_of_mem hi)
      exact ih item' hi' he.symm
    | text | found | node => simp [content] at hc

end Tree

namespace Expr

theorem contentAll_eq_map (es : List Expr) : contentAll es = es.map content := by
  induction es with
  | nil => rfl
  | cons e es ih => rw [contentAll, ih, List.map_cons]

/-- The parts of sequences that are the same are the same. -/
theorem chain?_of_content {e e' : Expr} {parts' : List Expr} (hc : e.content = e'.content)
    (h : e'.chain? = some parts') : ∃ parts, e.chain? = some parts ∧ parts.map content = parts'.map content := by
  cases e' with
  | sequence =>
    cases h
    cases e <;> simp only [content, contentAll_eq_map, sequence.injEq, reduceCtorEq] at hc
    exact ⟨_, rfl, hc⟩
  | merge =>
    cases h
    cases e <;> simp only [content, contentAll_eq_map, merge.injEq, reduceCtorEq] at hc
    exact ⟨_, rfl, hc⟩
  | _ => cases h

theorem exists_of_map_content {es es' : List Expr} (h : es.map content = es'.map content) {e' : Expr} (he : e' ∈ es') :
    ∃ e ∈ es, e.content = e'.content := by
  obtain ⟨e, hm, hc⟩ := List.mem_map.1 (h ▸ List.mem_map_of_mem he)
  exact ⟨e, hm, hc⟩

end Expr

/-- Of two expressions that are the same, both may hold in a way. -/
theorem Voids.of_content {g : Grammar} {k : Void} {e' : Expr} (h : Voids g k e') :
    ∀ {e : Expr}, e.content = e'.content → Voids g k e := by
  have all {parts parts' : List Expr} (hmap : parts.map Expr.content = parts'.map Expr.content)
      (ih : ∀ part' ∈ parts', ∀ {e : Expr}, e.content = part'.content → Voids g .any e) :
      ∀ part ∈ parts, Voids g .any part := by
    intro part hp
    obtain ⟨part', hp', hc⟩ := Expr.exists_of_map_content hmap.symm hp
    exact ih part' hp' hc.symm
  induction h with
  | any _ ih => exact fun hc => .any (ih hc)
  | ahead =>
    intro e hc
    cases e <;> simp only [Expr.content, reduceCtorEq] at hc
    exact .ahead
  | notAhead =>
    intro e hc
    cases e <;> simp only [Expr.content, reduceCtorEq] at hc
    exact .notAhead
  | omitted =>
    intro e hc
    cases e <;> simp only [Expr.content, reduceCtorEq] at hc
    exact .omitted
  | omission _ ih =>
    intro e hc
    cases e <;> simp only [Expr.content, Expr.omission.injEq, reduceCtorEq] at hc
    exact .omission (ih hc)
  | never hmin =>
    intro e hc
    cases e <;> simp only [Expr.content, Expr.repetition.injEq, Option.map_none, Option.map_eq_none_iff, reduceCtorEq] at hc
    obtain ⟨-, rfl, rfl⟩ := hc
    exact .never hmin
  | fallback ht =>
    intro e hc
    cases e <;> simp only [Expr.content, Expr.repetition.injEq, Option.map_some, Option.map_eq_some_iff, reduceCtorEq] at hc
    obtain ⟨-, rfl, t', rfl, ht'⟩ := hc
    exact .fallback (ht.of_content ht')
  | rounds hk _ ih =>
    intro e hc
    cases e <;> simp only [Expr.content, Expr.repetition.injEq, reduceCtorEq] at hc
    exact .rounds hk (ih hc.1)
  | external =>
    intro e hc
    cases e <;> simp only [Expr.content, reduceCtorEq] at hc
    exact .external
  | rule hb h _ =>
    intro e hc
    cases e <;> simp only [Expr.content, Expr.rule.injEq, reduceCtorEq] at hc
    exact hc ▸ .rule hb h
  | choice he _ ih =>
    intro e hc
    cases e <;> simp only [Expr.content, Expr.contentAll_eq_map, Expr.choice.injEq, reduceCtorEq] at hc
    obtain ⟨e, hm, hc⟩ := Expr.exists_of_map_content hc he
    exact .choice hm (ih hc)
  | nothing h =>
    intro e hc
    obtain ⟨parts, hchain, hmap⟩ := Expr.chain?_of_content hc h
    cases parts with
    | nil => exact .nothing hchain
    | cons => cases hmap
  | chain h _ hp _ ihall ih =>
    intro e hc
    obtain ⟨parts, hchain, hmap⟩ := Expr.chain?_of_content hc h
    obtain ⟨part, hm, hc⟩ := Expr.exists_of_map_content hmap hp
    exact .chain hchain (all hmap ihall) hm (ih hc)
  | last hk h _ hlast _ ihall ih =>
    intro e hc
    obtain ⟨parts, hchain, hmap⟩ := Expr.chain?_of_content hc h
    obtain ⟨part, hm, hc⟩ : ∃ part, parts.getLast? = some part ∧ part.content = _ := by
      have := congrArg List.getLast? hmap
      rw [List.getLast?_map, List.getLast?_map, hlast] at this
      exact Option.map_eq_some_iff.1 this
    exact .last hk hchain (all hmap ihall) hm (ih hc)
  | seed hhas hset hm h _ =>
    intro e hc
    cases e <;> simp only [Expr.content, reduceCtorEq] at hc
    exact .seed hhas hset hm h

/-! ## Grammars where nothing is hidden -/

/-- No sequence can be silent behind a part that may have left its input out, and what may be silent
by looking ahead is not repeated more than once. -/
structure Grammar.Candid (g : Grammar) : Prop where
  chains : ∀ (e part : Expr) (parts : List Expr) (why : Silence), g.Has e → e.chain? = some parts →
    (∀ part ∈ parts, Voids g .any part) → parts.getLast? = some part → Voids g why.void part →
    ∀ before ∈ parts.dropLast, ¬ Voids g .blank before
  repetitions : ∀ body bounds fallback, g.Has (.repetition body bounds fallback) → Voids g .looking body →
    ∃ n ≤ 1, bounds.max = some n

/-- Whether an expression by itself always has something to show when it took input. -/
def Expr.shows : Expr → Bool
  | .omission _ | .external _ | .sequence [] | .merge [] => false
  | .repetition _ _ (some fallback) => fallback.items?.isNone
  | _ => true

/-- Where all expressions always have something to show, none is blank. -/
theorem Voids.ne_blank {g : Grammar} (hg : ∀ e, g.Has e → e.shows = true) {k : Void} {e : Expr} (h : Voids g k e) :
    g.Has e → k ≠ .blank := by
  induction h with
  | any | ahead | notAhead | omission | never => exact fun _ => nofun
  | omitted | external => exact fun he => absurd (hg _ he) Bool.false_ne_true
  | @fallback body bounds t ht =>
    intro he
    cases ht with
    | list => exact absurd (hg _ he) Bool.false_ne_true
  | rounds _ _ ih => exact fun he => ih (he.part List.mem_cons_self)
  | rule hb _ ih => exact fun _ => ih (.body hb)
  | choice hm _ ih => exact fun he => ih (he.part hm)
  | @nothing e hc =>
    intro he
    have hshows := hg _ he
    cases e <;> simp only [Expr.chain?, Option.some.injEq, reduceCtorEq] at hc
    · rw [hc] at hshows
      cases hshows
    · rw [hc] at hshows
      cases hshows
  | chain hc _ hm _ _ ih => exact fun he => absurd rfl (ih (he.part (by rwa [Expr.parts_of_chain? hc])))
  | last hk => rcases hk with rfl | rfl <;> exact fun _ => nofun
  | seed hhas _ hm _ ih => exact fun _ => absurd rfl (ih (hhas.part (by simp [Expr.parts, hm])))

end Packrat

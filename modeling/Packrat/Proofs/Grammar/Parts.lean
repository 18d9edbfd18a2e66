/-
The expressions that a grammar has: its rule bodies, its skippers, and all that these consist of. A
grammar built from definitions refers to rules that it defines only. Equal structure is plain
equality on expressions without fallbacks.
-/
import Packrat.Expr.Equality
import Packrat.Grammar.Definition

namespace Packrat

/-- The expressions that an expression consists of. -/
def Expr.parts : Expr → List Expr
  | .sequence parts | .merge parts | .choice parts => parts
  | .repetition body _ _ | .ahead body | .notAhead body | .omission body => [body]
  | .literal _ | .pattern _ | .rule _ | .external _ => []

/-- The expressions that a grammar has. -/
inductive Grammar.Has (g : Grammar) : Expr → Prop
  | start : g.Has (.rule g.start)
  | body {name : String} {body : Expr} : g.rule? name = some body → g.Has body
  | skipper {skipper : Expr} : g.skipper = some skipper → g.Has skipper
  | override {rule : String} {skipper : Expr} : g.override? rule = some (some skipper) → g.Has skipper
  | part {e part : Expr} : g.Has e → part ∈ e.parts → g.Has part

/-- A pattern of which an engine matches nothing but beginnings of texts. -/
def Pattern.Anchored (engine : Regex.Engine) (p : Pattern) : Prop :=
  ∀ text groups, engine.captures p text = some groups → Tree.matchedText groups <+: text

/-! ## References -/

namespace Expr

theorem references_of_mem : ∀ {es : List Expr} {e : Expr}, e ∈ es → e.references ⊆ referencesAll es
  | e :: es, _, h => by
    rw [referencesAll]
    rcases List.mem_cons.1 h with rfl | h
    · exact List.subset_append_left _ _
    · exact List.Subset.trans (references_of_mem h) (List.subset_append_right _ _)

theorem references_part {e part : Expr} (h : part ∈ e.parts) : part.references ⊆ e.references := by
  cases e with
  | sequence parts | merge parts | choice parts =>
    rw [references]
    exact references_of_mem h
  | repetition body | ahead body | notAhead body | omission body =>
    rw [references, List.mem_singleton.1 h]
    exact List.Subset.refl _
  | literal | pattern | rule | external => simp [parts] at h

end Expr

namespace Grammar

variable {g : Grammar} {e : Expr}

theorem mem_of_lookup {α β : Type} [BEq α] [LawfulBEq α] {l : List (α × β)} {a : α} {b : β}
    (h : l.lookup a = some b) : (a, b) ∈ l := by
  obtain ⟨before, after, rfl, -⟩ := List.lookup_eq_some_iff.1 h
  simp

theorem Has.references (h : g.Has e) : e.references ⊆ g.references := by
  intro name hn
  induction h with
  | start =>
    rw [Expr.references] at hn
    rw [List.mem_singleton.1 hn]
    exact List.mem_cons_self
  | body hb =>
    refine List.mem_cons_of_mem _ (List.mem_append_left _ (List.mem_flatMap.2 ⟨_, mem_of_lookup hb, hn⟩))
  | skipper hs =>
    refine List.mem_cons_of_mem _ (List.mem_append_right _ (List.mem_append_left _ ?_))
    rw [hs]
    exact hn
  | override ho =>
    refine List.mem_cons_of_mem _ (List.mem_append_right _ (List.mem_append_right _ ?_))
    exact List.mem_flatMap.2 ⟨_, mem_of_lookup ho, hn⟩
  | part _ hp ih => exact ih (Expr.references_part hp hn)

/-- A grammar that definitions give has a body for every rule that it refers to. -/
theorem defined_of_built {definitions : List Definition} {engine : Regex.Engine}
    (hg : ofDefinitions definitions engine = .ok g) {name : String} (h : g.Has (.rule name)) : (g.rule? name).isSome := by
  have hr : name ∈ g.references := h.references (by simp [Expr.references])
  unfold ofDefinitions at hg
  obtain ⟨draft, hd, hf⟩ : ∃ draft, definitions.foldlM Draft.add (.empty engine) = .ok draft ∧ draft.finish = .ok g := by
    cases hd : definitions.foldlM Draft.add (.empty engine) with
    | error error => simp [hd, bind, Except.bind] at hg
    | ok draft => exact ⟨draft, rfl, by simpa [hd, bind, Except.bind] using hg⟩
  unfold Draft.finish at hf
  split at hf
  · simp at hf
  · simp only at hf
    split at hf
    · simp at hf
    · next hn =>
      cases hf
      have := List.find?_eq_none.1 hn name hr
      simpa [Option.isNone_iff_eq_none, Option.isSome_iff_ne_none] using this

end Grammar

/-! ## Equal structure -/

namespace Expr

/-- What an expression falls back to. -/
def fallback? : Expr → Option Tree
  | .repetition _ _ fallback => fallback
  | _ => none

/-- An expression of some kind throughout. -/
inductive Throughout (P : Expr → Prop) : Expr → Prop
  | intro {e : Expr} : P e → (∀ part ∈ e.parts, Throughout P part) → Throughout P e

theorem Throughout.here {P : Expr → Prop} {e : Expr} : e.Throughout P → P e
  | intro h _ => h

theorem Throughout.part {P : Expr → Prop} {e part : Expr} : e.Throughout P → part ∈ e.parts → part.Throughout P
  | intro _ h, hp => h _ hp

mutual

/-- Expressions without fallbacks that have equal structure are equal. -/
theorem eq_of_same : ∀ {a b : Expr}, a.Throughout (·.fallback? = none) → a.same b = true → a = b
  | .literal _, b, _, h => by cases b <;> simp_all [same]
  | .pattern _, b, _, h => by
    cases b <;> simp only [same, Bool.false_eq_true] at h
    rw [Pattern.ext_source (eq_of_beq h)]
  | .rule _, b, _, h => by cases b <;> simp_all [same]
  | .external _, b, _, h => by cases b <;> simp_all [same]
  | .sequence as, b, ht, h => by
    cases b <;> simp only [same, Bool.false_eq_true] at h
    exact congrArg sequence (eq_of_sameAll (fun a ha => ht.part ha) h)
  | .merge as, b, ht, h => by
    cases b <;> simp only [same, Bool.false_eq_true] at h
    exact congrArg merge (eq_of_sameAll (fun a ha => ht.part ha) h)
  | .choice as, b, ht, h => by
    cases b <;> simp only [same, Bool.false_eq_true] at h
    exact congrArg choice (eq_of_sameAll (fun a ha => ht.part ha) h)
  | .repetition a bounds fallback, b, ht, h => by
    cases b <;> simp only [same, Bool.false_eq_true, Bool.and_eq_true] at h
    next b bounds' fallback' =>
    have hf : fallback = none := ht.here
    subst hf
    obtain ⟨⟨hb, ha⟩, hs⟩ := h
    have : fallback' = none := by cases fallback' <;> simp_all [sameFallback]
    rw [eq_of_beq hb, eq_of_same (ht.part (by simp [parts])) ha, this]
  | .ahead a, b, ht, h => by
    cases b <;> simp only [same, Bool.false_eq_true] at h
    exact congrArg ahead (eq_of_same (ht.part (by simp [parts])) h)
  | .notAhead a, b, ht, h => by
    cases b <;> simp only [same, Bool.false_eq_true] at h
    exact congrArg notAhead (eq_of_same (ht.part (by simp [parts])) h)
  | .omission a, b, ht, h => by
    cases b <;> simp only [same, Bool.false_eq_true] at h
    exact congrArg omission (eq_of_same (ht.part (by simp [parts])) h)

theorem eq_of_sameAll : ∀ {as bs : List Expr}, (∀ a ∈ as, a.Throughout (·.fallback? = none)) →
    sameAll as bs = true → as = bs
  | [], bs, _, h => by cases bs <;> simp_all [sameAll]
  | a :: as, bs, ht, h => by
    cases bs <;> simp only [sameAll, Bool.false_eq_true, Bool.and_eq_true] at h
    rw [eq_of_same (ht a List.mem_cons_self) h.1, eq_of_sameAll (fun a ha => ht a (List.mem_cons_of_mem _ ha)) h.2]

end

theorem sizeOf_part {e part : Expr} (h : part ∈ e.parts) : sizeOf part < sizeOf e := by
  cases e with
  | sequence parts | merge parts | choice parts =>
    have := List.sizeOf_lt_of_mem (show part ∈ parts from h)
    simp only [sequence.sizeOf_spec, merge.sizeOf_spec, choice.sizeOf_spec]
    omega
  | repetition body | ahead body | notAhead body | omission body =>
    rw [List.mem_singleton.1 h]
    simp only [repetition.sizeOf_spec, ahead.sizeOf_spec, notAhead.sizeOf_spec, omission.sizeOf_spec]
    omega
  | literal | pattern | rule | external => simp [parts] at h

/-- What holds of an expression if it holds of its parts holds of all expressions. -/
@[elab_as_elim]
theorem parts_induction {motive : Expr → Prop} (step : ∀ e, (∀ part ∈ e.parts, motive part) → motive e) (e : Expr) :
    motive e :=
  step e fun part _ => parts_induction step part
termination_by sizeOf e
decreasing_by exact sizeOf_part ‹_›

end Expr

/-- What holds of all that a grammar has holds throughout each of its expressions. -/
theorem Grammar.Has.throughout {g : Grammar} {P : Expr → Prop} (h : ∀ e, g.Has e → P e) {e : Expr}
    (he : g.Has e) : e.Throughout P :=
  .intro (h e he) fun _ hp => throughout h (he.part hp)
termination_by sizeOf e
decreasing_by exact Expr.sizeOf_part hp

/-! ## Checking all that a grammar has -/

namespace Expr

mutual

/-- Whether a check passes on an expression and all that it consists of. -/
def passes (check : Expr → Bool) : Expr → Bool
  | .literal text => check (.literal text)
  | .pattern p => check (.pattern p)
  | .rule name => check (.rule name)
  | .external key => check (.external key)
  | .sequence parts => check (.sequence parts) && allPass check parts
  | .merge parts => check (.merge parts) && allPass check parts
  | .choice alternatives => check (.choice alternatives) && allPass check alternatives
  | .repetition body bounds fallback => check (.repetition body bounds fallback) && body.passes check
  | .ahead body => check (.ahead body) && body.passes check
  | .notAhead body => check (.notAhead body) && body.passes check
  | .omission body => check (.omission body) && body.passes check

/-- Whether a check passes on some expressions and all that they consist of. -/
def allPass (check : Expr → Bool) : List Expr → Bool
  | [] => true
  | e :: rest => e.passes check && allPass check rest

end

variable {check : Expr → Bool} {e part : Expr}

theorem passes_of_mem : ∀ {es : List Expr}, allPass check es = true → e ∈ es → e.passes check = true
  | _ :: es, h, hm => by
    rw [allPass, Bool.and_eq_true] at h
    rcases List.mem_cons.1 hm with rfl | hm
    · exact h.1
    · exact passes_of_mem h.2 hm

theorem check_of_passes (h : e.passes check = true) : check e = true := by
  cases e <;> simp only [passes, Bool.and_eq_true] at h <;> first | exact h | exact h.1

theorem passes_part (h : e.passes check = true) (hp : part ∈ e.parts) : part.passes check = true := by
  cases e with
  | sequence parts | merge parts | choice parts =>
    rw [passes, Bool.and_eq_true] at h
    exact passes_of_mem h.2 hp
  | repetition body | ahead body | notAhead body | omission body =>
    rw [passes, Bool.and_eq_true] at h
    rw [List.mem_singleton.1 hp]
    exact h.2
  | literal | pattern | rule | external => simp [parts] at hp

end Expr

namespace Grammar

/-- Whether a check passes on all that a grammar has. -/
def passes (g : Grammar) (check : Expr → Bool) : Bool :=
  check (.rule g.start) && g.rules.all (·.2.passes check) && g.skipper.all (·.passes check) &&
    g.overrides.all (·.2.all (·.passes check))

theorem Has.passes {g : Grammar} {check : Expr → Bool} (h : g.passes check = true) {e : Expr} (he : g.Has e) :
    e.passes check = true := by
  unfold Grammar.passes at h
  simp only [Bool.and_eq_true] at h
  obtain ⟨⟨⟨hstart, hrules⟩, hskipper⟩, hoverrides⟩ := h
  induction he with
  | start => exact hstart
  | body hb => exact List.all_eq_true.1 hrules _ (mem_of_lookup hb)
  | skipper hs => simpa [hs] using hskipper
  | override ho => simpa using List.all_eq_true.1 hoverrides _ (mem_of_lookup ho)
  | part _ hp ih => exact Expr.passes_part ih hp

/-- What a check tells holds of all that the grammar has. -/
theorem Has.check {g : Grammar} {check : Expr → Bool} (h : g.passes check = true) {e : Expr} (he : g.Has e) :
    check e = true := Expr.check_of_passes (he.passes h)

end Grammar

/-! ## Results from the text -/

/-- Whatever parsing gives stems from the text: no matcher comes from outside, and fallbacks are empty
lists. -/
structure Grammar.Textual (g : Grammar) : Prop where
  internal : ∀ key, ¬ g.Has (.external key)
  fallbacks : ∀ body bounds t, g.Has (.repetition body bounds (some t)) → t.isNil = true

/-- Whether what an expression gives by itself stems from the text. -/
def Expr.isTextual : Expr → Bool
  | .external _ => false
  | .repetition _ _ (some fallback) => fallback.isNil
  | _ => true

theorem Grammar.textual_of_check {g : Grammar} (h : g.passes Expr.isTextual = true) : g.Textual where
  internal _ he := Bool.false_ne_true (he.check h)
  fallbacks _ _ _ he := he.check h

/-- Whether an expression is no pattern. -/
def Expr.isPatternless : Expr → Bool
  | .pattern _ => false
  | _ => true

theorem Grammar.anchored_of_check {g : Grammar} (h : g.passes Expr.isPatternless = true) (p : Pattern)
    (hp : g.Has (.pattern p)) : p.Anchored g.engine :=
  absurd (hp.check h) Bool.false_ne_true

/-- This closes the parenthesis that keeps a pattern to the beginning of what is left. -/
def Grammar.strayLetter : Pattern := (Pattern.ofSource? ['x', ')', '|', '(', '?', ':', 'b']).get (by decide +kernel)

end Packrat

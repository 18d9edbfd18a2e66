/-
How left recursion looks in a grammar. An expression opens a rule when trying it can come to a
reference to the rule before any input is taken and without entering another rule. Left recursion is
at home in the body of a rule when the rule is opened in one way only: by alternatives that are the
rule itself or that begin with it. It is grounded when some alternative does not open the rule, so
that the others get something to begin with.
-/
import Packrat.Proofs.Grammar.Parts

namespace Packrat

/-- The parts that follow each other in a sequence or a merge. -/
def Expr.chain? : Expr → Option (List Expr)
  | .sequence parts | .merge parts => some parts
  | _ => none

theorem Expr.parts_of_chain? {e : Expr} {parts : List Expr} (h : e.chain? = some parts) : e.parts = parts := by
  cases e <;> simp_all [chain?, Expr.parts]

/-- Whether input is skipped where a part of the expression fails. -/
def Expr.Skips : Expr → Prop
  | .sequence parts | .merge parts => parts ≠ []
  | .repetition .. => True
  | _ => False

theorem Expr.skips_of_chain? {e : Expr} {parts : List Expr} (h : e.chain? = some parts) (hne : parts ≠ []) : e.Skips := by
  cases e <;> simp_all [chain?, Skips]

/-- A reference to the rule can be met before input is taken, given which expressions may hold
without taking input and what is skipped between tokens. -/
inductive Opens (stays : Expr → Prop) (skipper : Option Expr) (r : String) : Expr → Prop
  | rule : Opens stays skipper r (.rule r)
  /-- A part of a sequence or merge behind parts that need not take input. -/
  | chain {e part : Expr} {before after : List Expr} : e.chain? = some (before ++ part :: after) →
    (∀ b ∈ before, stays b) → Opens stays skipper r part → Opens stays skipper r e
  /-- A part of any other expression. -/
  | part {e part : Expr} : e.chain? = none → part ∈ e.parts → Opens stays skipper r part → Opens stays skipper r e
  | skipper {e s : Expr} : e.Skips → skipper = some s → Opens stays skipper r s → Opens stays skipper r e

/-- The ways in which the body of a rule may open it: not at all, or by alternatives that are the
rule itself or begin with it. If the rule may hold without taking input, then what follows it must
not open it again. -/
inductive Homed (stays : Expr → Prop) (skipper : Option Expr) (r : String) : Expr → Prop
  | other {e : Expr} : ¬ Opens stays skipper r e → Homed stays skipper r e
  | itself : Homed stays skipper r (.rule r)
  | chain {e : Expr} {rest : List Expr} : e.chain? = some (.rule r :: rest) →
    (stays (.rule r) → ¬ Opens stays skipper r (.sequence rest)) → Homed stays skipper r e
  | choice {alternatives : List Expr} : (∀ e ∈ alternatives, Homed stays skipper r e) →
    Homed stays skipper r (.choice alternatives)

/-- Some alternative does not open the rule. -/
inductive Grounded (stays : Expr → Prop) (skipper : Option Expr) (r : String) : Expr → Prop
  | other {e : Expr} : ¬ Opens stays skipper r e → Grounded stays skipper r e
  | choice {e : Expr} {alternatives : List Expr} : e ∈ alternatives → Grounded stays skipper r e →
    Grounded stays skipper r (.choice alternatives)

section

variable {stays : Expr → Prop} {skipper : Option Expr} {r : String} {e : Expr}

theorem not_grounded_rule : ¬ Grounded stays skipper r (.rule r) := by
  rintro ⟨h⟩
  exact h .rule

theorem not_grounded_chain {rest : List Expr} (h : e.chain? = some (.rule r :: rest)) :
    ¬ Grounded stays skipper r e := by
  intro hg
  cases hg with
  | other hn => exact hn (@Opens.chain _ _ _ e (.rule r) [] rest h (by simp) .rule)
  | choice => simp [Expr.chain?] at h

theorem not_opens_part {part : Expr} (h : ¬ Opens stays skipper r e) (hc : e.chain? = none) (hp : part ∈ e.parts) :
    ¬ Opens stays skipper r part := fun ho => h (.part hc hp ho)

end

/-! ## Checks -/

namespace Expr

mutual

/-- Whether an expression opens a rule by itself, skippers apart. -/
def opens (stays : Expr → Bool) (r : String) : Expr → Bool
  | .rule name => name == r
  | .sequence parts | .merge parts => chainOpens stays r parts
  | .choice alternatives => anyOpens stays r alternatives
  | .repetition body _ _ | .ahead body | .notAhead body | .omission body => body.opens stays r
  | .literal _ | .pattern _ | .external _ => false

/-- Whether expressions that follow each other open a rule. -/
def chainOpens (stays : Expr → Bool) (r : String) : List Expr → Bool
  | [] => false
  | e :: rest => e.opens stays r || stays e && chainOpens stays r rest

/-- Whether some expression opens a rule. -/
def anyOpens (stays : Expr → Bool) (r : String) : List Expr → Bool
  | [] => false
  | e :: rest => e.opens stays r || anyOpens stays r rest

end

/-- Whether an expression begins with a rule, and what follows does not open it again. -/
def begins (stays : Expr → Bool) (r : String) (e : Expr) : Bool :=
  match e.chain? with
  | some (.rule name :: rest) => name == r && (!stays (.rule r) || !chainOpens stays r rest)
  | _ => false

mutual

/-- Whether an expression opens a rule in the ways that a body may. -/
def homed (stays : Expr → Bool) (r : String) : Expr → Bool
  | .rule _ => true
  | .choice alternatives => allHomed stays r alternatives
  | e => !e.opens stays r || e.begins stays r

/-- Whether all of some expressions open a rule in the ways that a body may. -/
def allHomed (stays : Expr → Bool) (r : String) : List Expr → Bool
  | [] => true
  | e :: rest => e.homed stays r && allHomed stays r rest

end

mutual

/-- Whether some alternative does not open a rule. -/
def grounded (stays : Expr → Bool) (r : String) : Expr → Bool
  | .choice alternatives => anyGrounded stays r alternatives
  | e => !e.opens stays r

/-- Whether some of the expressions is grounded. -/
def anyGrounded (stays : Expr → Bool) (r : String) : List Expr → Bool
  | [] => false
  | e :: rest => e.grounded stays r || anyGrounded stays r rest

end

end Expr

section

variable {stays : Expr → Prop} {check : Expr → Bool} {skipper : Option Expr} {r : String}

theorem chainOpens_of_mem (hstays : ∀ e, stays e → check e = true) {part : Expr} (after : List Expr)
    (hp : part.opens check r = true) : ∀ {before : List Expr}, (∀ b ∈ before, stays b) →
      Expr.chainOpens check r (before ++ part :: after) = true
  | [], _ => by simp [Expr.chainOpens, hp]
  | b :: before, hb => by
    have ih := chainOpens_of_mem hstays after hp fun c hc => hb c (List.mem_cons_of_mem _ hc)
    simp [Expr.chainOpens, hstays b (hb b List.mem_cons_self), ih]

theorem anyOpens_of_mem {part : Expr} (hp : part.opens check r = true) : ∀ {parts : List Expr}, part ∈ parts →
    Expr.anyOpens check r parts = true
  | e :: parts, hm => by
    rcases List.mem_cons.1 hm with rfl | hm
    · simp [Expr.anyOpens, hp]
    · simp [Expr.anyOpens, anyOpens_of_mem hp hm]

/-- An expression that opens a rule does so by itself or through what is skipped. -/
theorem Opens.opens (hstays : ∀ e, stays e → check e = true) {e : Expr} (h : Opens stays skipper r e) :
    e.opens check r = true ∨ ∃ s, skipper = some s ∧ s.opens check r = true := by
  induction h with
  | rule => exact .inl (by simp [Expr.opens])
  | @chain e part before after hc hb _ ih =>
    refine ih.imp_left fun hp => ?_
    have := chainOpens_of_mem hstays after hp hb
    cases e <;> simp only [Expr.chain?, Option.some.injEq, reduceCtorEq] at hc <;> rw [Expr.opens, hc, this]
  | @part e part hc hp _ ih =>
    refine ih.imp_left fun hpart => ?_
    cases e with
    | sequence | merge => cases hc
    | choice alternatives =>
      rw [Expr.opens]
      exact anyOpens_of_mem hpart hp
    | repetition body | ahead body | notAhead body | omission body =>
      rw [Expr.opens, ← List.mem_singleton.1 hp]
      exact hpart
    | literal | pattern | rule | external => cases hp
  | skipper _ hs _ ih => exact .inr (ih.elim (fun h => ⟨_, hs, h⟩) id)

/-- What fails the check does not open the rule. -/
theorem not_opens_of_check (hstays : ∀ e, stays e → check e = true)
    (hs : ∀ s, skipper = some s → s.opens check r = false) {e : Expr} (h : e.opens check r = false) :
    ¬ Opens stays skipper r e := by
  intro ho
  rcases ho.opens hstays with he | ⟨s, hsome, he⟩
  · simp [h] at he
  · simp [hs s hsome] at he

theorem homed_of_begins (hstays : ∀ e, stays e → check e = true)
    (hs : ∀ s, skipper = some s → s.opens check r = false) {e : Expr} (h : e.begins check r = true) :
    Homed stays skipper r e := by
  unfold Expr.begins at h
  split at h
  · next name rest hc =>
    simp only [Bool.and_eq_true, beq_iff_eq, Bool.or_eq_true, Bool.not_eq_true'] at h
    obtain ⟨rfl, h⟩ := h
    refine .chain hc fun hstay => not_opens_of_check hstays hs ?_
    rw [Expr.opens]
    exact h.resolve_left (by simp [hstays _ hstay])
  · cases h

mutual

theorem homed_of_check (hstays : ∀ e, stays e → check e = true)
    (hs : ∀ s, skipper = some s → s.opens check r = false) : ∀ {e : Expr}, e.homed check r = true →
      Homed stays skipper r e
  | .rule name, _ => by
    by_cases hn : name = r
    · exact hn ▸ .itself
    · exact .other (not_opens_of_check hstays hs (by simp [Expr.opens, hn]))
  | .choice alternatives, h => by
    rw [Expr.homed] at h
    exact .choice fun e he => homed_of_mem hstays hs h e he
  | .literal _, _ | .pattern _, _ | .external _, _ => .other (not_opens_of_check hstays hs rfl)
  | .sequence _, h | .merge _, h | .repetition _ _ _, h | .ahead _, h | .notAhead _, h | .omission _, h => by
    simp only [Expr.homed, Bool.or_eq_true, Bool.not_eq_true'] at h
    rcases h with h | h
    · exact .other (not_opens_of_check hstays hs h)
    · exact homed_of_begins hstays hs h

theorem homed_of_mem (hstays : ∀ e, stays e → check e = true)
    (hs : ∀ s, skipper = some s → s.opens check r = false) : ∀ {es : List Expr}, Expr.allHomed check r es = true →
      ∀ e ∈ es, Homed stays skipper r e
  | first :: es, h, e, he => by
    rw [Expr.allHomed, Bool.and_eq_true] at h
    rcases List.mem_cons.1 he with he | he
    · rw [he]
      exact homed_of_check hstays hs h.1
    · exact homed_of_mem hstays hs h.2 e he

end

mutual

theorem grounded_of_check (hstays : ∀ e, stays e → check e = true)
    (hs : ∀ s, skipper = some s → s.opens check r = false) : ∀ {e : Expr}, e.grounded check r = true →
      Grounded stays skipper r e
  | .choice alternatives, h => by
    rw [Expr.grounded] at h
    obtain ⟨e, he, hg⟩ := grounded_of_any hstays hs h
    exact .choice he hg
  | .literal _, h | .pattern _, h | .rule _, h | .sequence _, h | .merge _, h | .repetition _ _ _, h | .ahead _, h
  | .notAhead _, h | .omission _, h | .external _, h => by
    simp only [Expr.grounded, Bool.not_eq_true'] at h
    exact .other (not_opens_of_check hstays hs h)

theorem grounded_of_any (hstays : ∀ e, stays e → check e = true)
    (hs : ∀ s, skipper = some s → s.opens check r = false) : ∀ {es : List Expr}, Expr.anyGrounded check r es = true →
      ∃ e ∈ es, Grounded stays skipper r e
  | first :: es, h => by
    rw [Expr.anyGrounded, Bool.or_eq_true] at h
    rcases h with h | h
    · exact ⟨first, List.mem_cons_self, grounded_of_check hstays hs h⟩
    · obtain ⟨e, he, hg⟩ := grounded_of_any hstays hs h
      exact ⟨e, List.mem_cons_of_mem _ he, hg⟩

end

end

end Packrat

/-
Reading a grammar of literals, references, sequences and choices as a context-free grammar, where a
choice allows each of its alternatives. What parsing accepts is derivable when left recursion is at
home and grounded in every rule: a suspended sequence is then resumed with nothing but results of
its own rule.
-/
import Packrat.Parse.Answer
import Packrat.Proofs.Memory.Keeping
import Packrat.Proofs.Parse.Collecting
import Packrat.Proofs.Recursion.Opening
import Packrat.Proofs.Session.Logic

namespace Packrat

/-- A text is derivable from an expression: choices allow each alternative, and sequences put the
texts of their parts in a row. -/
inductive Derives (g : Grammar) : Expr → List Char → Prop
  | literal {text : List Char} : Derives g (.literal text) text
  | rule {name : String} {body : Expr} {text : List Char} :
    g.rule? name = some body → Derives g body text → Derives g (.rule name) text
  | nil : Derives g (.sequence []) []
  | cons {part : Expr} {parts : List Expr} {a b : List Char} :
    Derives g part a → Derives g (.sequence parts) b → Derives g (.sequence (part :: parts)) (a ++ b)
  | choice {alternative : Expr} {alternatives : List Expr} {text : List Char} :
    alternative ∈ alternatives → Derives g alternative text → Derives g (.choice alternatives) text

/-- The expressions of a context-free grammar over texts without carriage returns. -/
def Expr.IsCfg : Expr → Prop
  | .literal text => '\r' ∉ text
  | .rule _ | .sequence _ | .choice _ => True
  | _ => False

instance : DecidablePred Expr.IsCfg := fun e =>
  match e with
  | .literal text => inferInstanceAs (Decidable ('\r' ∉ text))
  | .rule _ | .sequence _ | .choice _ => .isTrue trivial
  | .pattern _ | .merge _ | .repetition .. | .ahead _ | .notAhead _ | .omission _ | .external _ => .isFalse id

/-- A context-free grammar: nothing is skipped, and rules have no productions. -/
structure Grammar.IsCfg (g : Grammar) : Prop where
  kinds : ∀ e, g.Has e → e.IsCfg
  unskipped : g.skipper = none
  unoverridden : ∀ rule skipper, g.override? rule ≠ some (some skipper)
  unproduced : ∀ rule, g.production? rule = none

/-- Left recursion is at home in every rule and grounded. -/
def Grammar.Rooted (g : Grammar) : Prop :=
  ∀ r body, g.rule? r = some body →
    Homed (Derives g · []) none r body ∧ Grounded (Derives g · []) none r body

/-! ## Derivations -/

namespace Derives

variable {g : Grammar}

theorem append {xs ys : List Expr} {a b : List Char} (hx : Derives g (.sequence xs) a)
    (hy : Derives g (.sequence ys) b) : Derives g (.sequence (xs ++ ys)) (a ++ b) := by
  induction xs generalizing a with
  | nil =>
    cases hx
    exact hy
  | cons x xs ih =>
    cases hx with
    | cons h1 h2 =>
      rw [List.append_assoc]
      exact .cons h1 (ih h2)

theorem single {e : Expr} {a : List Char} (h : Derives g e a) : Derives g (.sequence [e]) a := by
  have := Derives.cons h .nil
  rwa [List.append_nil] at this

/-- The parts of a sequence that derives nothing derive nothing. -/
theorem of_sequence_nil {parts : List Expr} (h : Derives g (.sequence parts) []) :
    ∀ part ∈ parts, Derives g part [] := by
  induction parts with
  | nil => simp
  | cons part parts ih =>
    generalize he : ([] : List Char) = text at h
    cases h with
    | cons h1 h2 =>
      obtain ⟨rfl, rfl⟩ := List.append_eq_nil_iff.1 he.symm
      intro e hm
      rcases List.mem_cons.1 hm with rfl | hm
      · exact h1
      · exact ih h2 e hm

end Derives

/-- The text between two positions is derivable. -/
def Derived (job : Job) (e : Expr) (p q : Position) : Prop :=
  ∃ text, p.rest job.input = text ++ q.rest job.input ∧ Derives job.grammar e text

namespace Derived

variable {job : Job} {e e' : Expr} {p q o : Position}

theorem imp (h : Derived job e p q) (f : ∀ text, Derives job.grammar e text → Derives job.grammar e' text) :
    Derived job e' p q := by
  obtain ⟨text, hr, hd⟩ := h
  exact ⟨text, hr, f _ hd⟩

theorem nil : Derived job (.sequence []) p p := ⟨[], rfl, .nil⟩

theorem append {xs ys : List Expr} (h1 : Derived job (.sequence xs) p q) (h2 : Derived job (.sequence ys) q o) :
    Derived job (.sequence (xs ++ ys)) p o := by
  obtain ⟨a, ha, hd⟩ := h1
  obtain ⟨b, hb, hd'⟩ := h2
  exact ⟨a ++ b, by rw [ha, hb, List.append_assoc], hd.append hd'⟩

theorem snoc {xs : List Expr} (h1 : Derived job (.sequence xs) p q) (h2 : Derived job e q o) :
    Derived job (.sequence (xs ++ [e])) p o := h1.append (h2.imp fun _ h => h.single)

theorem le (h : Derived job e p q) (hp : p.Sits job.input) (hq : q.Sits job.input) : p.location ≤ q.location := by
  obtain ⟨text, hr, -⟩ := h
  have := congrArg List.length hr
  simp only [Position.rest, List.length_drop, List.length_append] at this
  have := hp.offset_le
  have := hq.offset_le
  rw [hp.le_iff hq]
  omega

/-- Where nothing was read, nothing was derived. -/
theorem nothing (h : Derived job e p q) (hl : q.location = p.location) (hp : p.Sits job.input)
    (hq : q.Sits job.input) : Derives job.grammar e [] := by
  obtain ⟨text, hr, hd⟩ := h
  rw [hq.ext hp hl] at hr
  have : text = [] := by simpa using hr
  exact this ▸ hd

end Derived

/-! ## Checks -/

namespace Expr

mutual

/-- Whether nothing can be derived from an expression, given from which rules it can. -/
def nullable (nullableRule : String → Bool) : Expr → Bool
  | .literal text => text.isEmpty
  | .rule name => nullableRule name
  | .sequence parts => allNullable nullableRule parts
  | .choice alternatives => anyNullable nullableRule alternatives
  | _ => false

/-- Whether nothing can be derived from each of some expressions. -/
def allNullable (nullableRule : String → Bool) : List Expr → Bool
  | [] => true
  | e :: rest => e.nullable nullableRule && allNullable nullableRule rest

/-- Whether nothing can be derived from one of some expressions. -/
def anyNullable (nullableRule : String → Bool) : List Expr → Bool
  | [] => false
  | e :: rest => e.nullable nullableRule || anyNullable nullableRule rest

end

theorem anyNullable_of_mem {nullableRule : String → Bool} {e : Expr} (he : e.nullable nullableRule = true) :
    ∀ {es : List Expr}, e ∈ es → anyNullable nullableRule es = true
  | first :: es, hm => by
    rcases List.mem_cons.1 hm with rfl | hm
    · simp [anyNullable, he]
    · simp [anyNullable, anyNullable_of_mem he hm]

end Expr

namespace Grammar

variable {g : Grammar} {nullableRule : String → Bool}

/-- Nothing is derived only where the check allows it, if the check allows it for a rule whenever it
allows it for the body. -/
theorem nullable_of_derives (hrules : g.rules.all (fun (r, body) => !body.nullable nullableRule || nullableRule r) = true)
    {e : Expr} (h : Derives g e []) : e.nullable nullableRule = true := by
  generalize ht : ([] : List Char) = text at h
  induction h with
  | literal => simp [Expr.nullable, ← ht]
  | rule hb _ ih =>
    have := List.all_eq_true.1 hrules _ (mem_of_lookup hb)
    simpa [Expr.nullable, ih ht] using this
  | nil => simp [Expr.nullable, Expr.allNullable]
  | cons _ _ ih1 ih2 =>
    obtain ⟨ha, hb⟩ := List.append_eq_nil_iff.1 ht.symm
    have h2 := ih2 hb.symm
    rw [Expr.nullable] at h2
    simp [Expr.nullable, Expr.allNullable, ih1 ha.symm, h2]
  | choice hm _ ih =>
    rw [Expr.nullable]
    exact Expr.anyNullable_of_mem (ih ht) hm

/-- A check of how the rules open themselves. -/
theorem rooted_of_check (hrules : g.rules.all (fun (r, body) => !body.nullable nullableRule || nullableRule r) = true)
    (h : g.rules.all (fun (r, body) => body.homed (·.nullable nullableRule) r &&
      body.grounded (·.nullable nullableRule) r) = true) : g.Rooted := by
  intro r body hb
  have := List.all_eq_true.1 h _ (mem_of_lookup hb)
  simp only [Bool.and_eq_true] at this
  exact ⟨homed_of_check (fun _ => nullable_of_derives hrules) (by simp) this.1,
    grounded_of_check (fun _ => nullable_of_derives hrules) (by simp) this.2⟩

end Grammar

end Packrat

/-
How far left recursion reaches. A rule that comes back to itself is signalled, and a sequence that
begins with the rule sets itself aside until a result of another alternative is there. Such signals
get out of rules and sequences, and out of a choice if all of its alternatives give one. Mostly a
sequence is set aside where the expression that it comes from was tried; it strays if that is
further on.
-/
import Packrat.Proofs.Grammar.Modes
import Packrat.Proofs.Recursion.Opening
import Packrat.Proofs.Session.Logic

namespace Packrat

/-- Trying the expression can signal that a rule came back to itself: one that the expression
enters, or the given one if it was entered at the same place. -/
inductive Returns (g : Grammar) : Option String → Expr → Prop
  | itself {r : String} : Returns g (some r) (.rule r)
  | rule {m : Option String} {name : String} {body : Expr} : g.rule? name = some body →
    Returns g (some name) body → Returns g m (.rule name)
  | choice {m : Option String} {alternatives : List Expr} : alternatives ≠ [] →
    (∀ e ∈ alternatives, Returns g m e) → Returns g m (.choice alternatives)
  | part {m : Option String} {e part : Expr} : (∀ alternatives, e ≠ .choice alternatives) → part ∈ e.parts →
    Returns g m part → Returns g m e

/-- Trying the expression can set a sequence aside. -/
inductive SetsAside (g : Grammar) : Option String → Expr → Prop
  | itself {r : String} {e : Expr} {rest : List Expr} : e.chain? = some (.rule r :: rest) → SetsAside g (some r) e
  | rule {m : Option String} {name : String} {body : Expr} : g.rule? name = some body →
    SetsAside g (some name) body → SetsAside g m (.rule name)
  | choice {m : Option String} {e : Expr} {alternatives : List Expr} : (∀ e ∈ alternatives, Returns g m e) →
    e ∈ alternatives → SetsAside g m e → SetsAside g m (.choice alternatives)
  | part {m : Option String} {e part : Expr} {parts : List Expr} : e.chain? = some parts → part ∈ parts →
    SetsAside g m part → SetsAside g m e

/-- Trying the expression can set a sequence aside further on: behind a part of a sequence or behind
skipped input. -/
inductive Strays (g : Grammar) : Option String → Expr → Prop
  | beyond {m : Option String} {e part : Expr} {parts : List Expr} : e.chain? = some parts → part ∈ parts →
    part ∈ parts.tail ∨ g.Skipping → SetsAside g none part → Strays g m e
  | rule {m : Option String} {name : String} {body : Expr} : g.rule? name = some body →
    Strays g (some name) body → Strays g m (.rule name)
  | choice {m : Option String} {e : Expr} {alternatives : List Expr} : (∀ e ∈ alternatives, Returns g m e) →
    e ∈ alternatives → Strays g m e → Strays g m (.choice alternatives)
  | part {m : Option String} {e part : Expr} {parts : List Expr} : e.chain? = some parts → part ∈ parts →
    Strays g m part → Strays g m e

section

variable {g : Grammar} {m : Option String} {e part : Expr} {parts : List Expr}

theorem Expr.ne_choice_of_chain? (h : e.chain? = some parts) (alternatives : List Expr) : e ≠ .choice alternatives := by
  rintro rfl
  cases h

theorem Returns.of_none (h : Returns g none e) : Returns g m e := by
  generalize hn : (none : Option String) = n at h
  induction h with
  | itself => cases hn
  | rule hb h _ => exact .rule hb h
  | choice hne _ ih => exact .choice hne fun e he => ih e he hn
  | part hc hp _ ih => exact .part hc hp (ih hn)

theorem SetsAside.of_none (h : SetsAside g none e) : SetsAside g m e := by
  generalize hn : (none : Option String) = n at h
  induction h with
  | itself => cases hn
  | rule hb h _ => exact .rule hb h
  | choice hall he _ ih =>
    subst hn
    exact .choice (fun e he => (hall e he).of_none) he (ih rfl)
  | part hc hp _ ih => exact .part hc hp (ih hn)

theorem SetsAside.returns (h : SetsAside g m e) : Returns g m e := by
  induction h with
  | itself hc => exact .part (Expr.ne_choice_of_chain? hc) (by simp [Expr.parts_of_chain? hc]) .itself
  | rule hb _ ih => exact .rule hb ih
  | choice hall he => exact .choice (List.ne_nil_of_mem he) hall
  | part hc hp _ ih => exact .part (Expr.ne_choice_of_chain? hc) (by rwa [Expr.parts_of_chain? hc]) ih

/-- Without mark, a sequence can be set aside only in a rule that lets it out. -/
theorem SetsAside.exists_rule (h : SetsAside g none e) :
    ∃ name body, g.rule? name = some body ∧ SetsAside g (some name) body := by
  generalize hn : (none : Option String) = n at h
  induction h with
  | itself => cases hn
  | rule hb h _ => exact ⟨_, _, hb, h⟩
  | choice _ _ _ ih => exact ih hn
  | part _ _ _ ih => exact ih hn

/-- Where no rule lets a sequence out that it has set aside, nothing strays. -/
theorem not_strays (hg : ∀ name body, g.rule? name = some body → ¬ SetsAside g (some name) body) :
    ¬ Strays g m e := by
  intro h
  induction h with
  | beyond _ _ _ h =>
    obtain ⟨name, body, hb, h⟩ := h.exists_rule
    exact hg name body hb h
  | rule _ _ ih => exact ih
  | choice _ _ _ ih => exact ih
  | part _ _ _ ih => exact ih

end

/-! ## A check -/

namespace Expr

mutual

/-- Whether an expression may come back to a rule whichever of its alternatives are tried, as far as
other rules do not. -/
def mayReturn (r : String) : Expr → Bool
  | .rule name => name == r
  | .sequence parts | .merge parts => anyReturns r parts
  | .choice alternatives => allReturn r alternatives
  | .repetition body _ _ | .ahead body | .notAhead body | .omission body => body.mayReturn r
  | .literal _ | .pattern _ | .external _ => false

/-- Whether some of the expressions may come back to a rule. -/
def anyReturns (r : String) : List Expr → Bool
  | [] => false
  | e :: rest => e.mayReturn r || anyReturns r rest

/-- Whether all of the expressions may come back to a rule. -/
def allReturn (r : String) : List Expr → Bool
  | [] => true
  | e :: rest => e.mayReturn r && allReturn r rest

end

theorem anyReturns_of_mem {r : String} {e : Expr} (h : e.mayReturn r = true) : ∀ {es : List Expr}, e ∈ es →
    anyReturns r es = true
  | e' :: es, hm => by
    rcases List.mem_cons.1 hm with rfl | hm
    · simp [anyReturns, h]
    · simp [anyReturns, anyReturns_of_mem h hm]

theorem allReturn_of_forall {r : String} : ∀ {es : List Expr}, (∀ e ∈ es, e.mayReturn r = true) → allReturn r es = true
  | [], _ => rfl
  | e :: es, h => by
    simp [allReturn, h e List.mem_cons_self, allReturn_of_forall fun e' he => h e' (List.mem_cons_of_mem _ he)]

end Expr

section

variable {g : Grammar} {m : Option String} {e : Expr}

/-- If every rule has an alternative that does not come back to it, then only references to the rule
entered last do. -/
theorem Returns.mayReturn (hg : ∀ name body, g.rule? name = some body → body.mayReturn name = false)
    (h : Returns g m e) : ∃ r, m = some r ∧ e.mayReturn r = true := by
  induction h with
  | itself => exact ⟨_, rfl, by simp [Expr.mayReturn]⟩
  | rule hb _ ih =>
    obtain ⟨r, hr, hbody⟩ := ih
    cases hr
    rw [hg _ _ hb] at hbody
    cases hbody
  | @choice m alternatives hne _ ih =>
    obtain ⟨e, es, rfl⟩ := List.exists_cons_of_ne_nil hne
    obtain ⟨r, rfl, -⟩ := ih e List.mem_cons_self
    refine ⟨r, rfl, ?_⟩
    rw [Expr.mayReturn]
    refine Expr.allReturn_of_forall fun e' he => ?_
    obtain ⟨r', hr', he'⟩ := ih e' he
    cases hr'
    exact he'
  | @part m e part hc hp _ ih =>
    obtain ⟨r, rfl, hpart⟩ := ih
    refine ⟨r, rfl, ?_⟩
    cases e with
    | choice alternatives => exact absurd rfl (hc alternatives)
    | sequence | merge =>
      rw [Expr.mayReturn]
      exact Expr.anyReturns_of_mem hpart hp
    | repetition body | ahead body | notAhead body | omission body =>
      rw [Expr.mayReturn, ← List.mem_singleton.1 hp]
      exact hpart
    | literal | pattern | rule | external => cases hp

/-- Where every rule passes the check, nothing strays. -/
theorem not_strays_of_check (hg : g.rules.all (fun (name, body) => !body.mayReturn name) = true) : ¬ Strays g m e := by
  have hrules (name : String) (body : Expr) (hb : g.rule? name = some body) : body.mayReturn name = false := by
    simpa using List.all_eq_true.1 hg _ (Grammar.mem_of_lookup hb)
  refine not_strays fun name body hb hset => ?_
  obtain ⟨r, hr, hbody⟩ := hset.returns.mayReturn hrules
  cases hr
  rw [hrules name body hb] at hbody
  cases hbody

end

/-! ## Signals under a mark -/

namespace Mark

/-- The rule entered last was entered at the location or before it. -/
def Behind (m : Mark) (l : Location) : Prop := ∀ rule l', m = some (rule, l') → l' ≤ l

/-- The rule entered last, if it was entered at the location. -/
def ruleAt (m : Mark) (l : Location) : Option String := m.bind fun (rule, l') => if l' = l then some rule else none

variable {m : Mark} {l l' : Location}

theorem Behind.mono (h : m.Behind l) (hle : l ≤ l') : m.Behind l' :=
  fun rule l'' hm => Location.le_trans (h rule l'' hm) hle

theorem behind_entered {rule : String} : Mark.Behind (some (rule, l)) l := by
  rintro _ _ ⟨⟩
  exact Location.le_refl l

@[simp] theorem ruleAt_entered {rule : String} : Mark.ruleAt (some (rule, l)) l = some rule := if_pos rfl

/-- Further on than where expressions are tried, no rule was entered yet. -/
theorem Behind.ruleAt_eq_none (h : m.Behind l) (hle : l ≤ l') (hne : l' ≠ l) : m.ruleAt l' = none := by
  cases m with
  | none => rfl
  | some entered =>
    refine if_neg fun he => hne (Location.le_antisymm ?_ hle)
    exact he ▸ h _ _ rfl

end Mark

/-- Under a mark, trying the expression at a location can give a recursion signal, with a sequence
that was set aside at some location or with none. -/
def Escapes (g : Grammar) (m : Mark) (e : Expr) (l : Location) : Option Location → Prop
  | none => Returns g (m.ruleAt l) e
  | some place => SetsAside g (m.ruleAt l) e ∧ l ≤ place ∧ (place ≠ l → Strays g (m.ruleAt l) e)

namespace Escapes

variable {g : Grammar} {m : Mark} {e part : Expr} {parts alternatives : List Expr} {r : String} {l l' : Location}
  {place : Option Location}

theorem returns (h : Escapes g m e l place) : Returns g (m.ruleAt l) e := by
  cases place with
  | none => exact h
  | some place => exact h.1.returns

theorem reference : Escapes g (some (r, l)) (.rule r) l none := by
  show Returns g _ _
  rw [Mark.ruleAt_entered]
  exact .itself

theorem itself {rest : List Expr} (hc : e.chain? = some (.rule r :: rest)) (hm : Mark.Behind (some (r, l')) l)
    (hle : l ≤ l') : Escapes g (some (r, l')) e l (some l') := by
  obtain rfl : l' = l := Location.le_antisymm (hm _ _ rfl) hle
  refine ⟨?_, Location.le_refl _, fun hne => absurd rfl hne⟩
  rw [Mark.ruleAt_entered]
  exact .itself hc

theorem rule {name : String} {body : Expr} (hb : g.rule? name = some body)
    (h : Escapes g (some (name, l)) body l place) : Escapes g m (.rule name) l place := by
  cases place with
  | none => exact .rule hb (Mark.ruleAt_entered ▸ h)
  | some place =>
    obtain ⟨hset, hle, hfar⟩ := h
    rw [Mark.ruleAt_entered] at hset hfar
    exact ⟨.rule hb hset, hle, fun hne => .rule hb (hfar hne)⟩

theorem choice (hall : ∀ e ∈ alternatives, ∃ place, Escapes g m e l place) (he : e ∈ alternatives)
    (h : Escapes g m e l place) : Escapes g m (.choice alternatives) l place := by
  have hreturns : ∀ e ∈ alternatives, Returns g (m.ruleAt l) e := fun e he => (hall e he).elim fun _ h => h.returns
  cases place with
  | none => exact .choice (List.ne_nil_of_mem he) hreturns
  | some place => exact ⟨.choice hreturns he h.1, h.2.1, fun hne => .choice hreturns he (h.2.2 hne)⟩

/-- A part that is tried here or further on returns, and so does the whole. -/
theorem returns_part (hc : ∀ alternatives, e ≠ .choice alternatives) (hp : part ∈ e.parts) (hm : m.Behind l)
    (hle : l ≤ l') (h : Escapes g m part l' place) : Escapes g m e l none := by
  refine .part hc hp ?_
  by_cases hl : l' = l
  · exact hl ▸ h.returns
  · have := h.returns
    rw [hm.ruleAt_eq_none hle hl] at this
    exact this.of_none

/-- A part of a sequence or merge that is tried further on comes behind another part or behind
skipped input. -/
theorem chain (hc : e.chain? = some parts) (hp : part ∈ parts) (hm : m.Behind l) (hle : l ≤ l')
    (hfar : l' ≠ l → part ∈ parts.tail ∨ g.Skipping) (h : Escapes g m part l' place) : Escapes g m e l place := by
  cases place with
  | none => exact h.returns_part (Expr.ne_choice_of_chain? hc) (by rwa [Expr.parts_of_chain? hc]) hm hle
  | some place =>
    obtain ⟨hset, hle', hstray⟩ := h
    by_cases hl : l' = l
    · subst hl
      exact ⟨.part hc hp hset, hle', fun hne => .part hc hp (hstray hne)⟩
    · rw [hm.ruleAt_eq_none hle hl] at hset
      exact ⟨.part hc hp hset.of_none, Location.le_trans hle hle', fun _ => .beyond hc hp (hfar hl) hset⟩

end Escapes

end Packrat

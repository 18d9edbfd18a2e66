/-
Which definitions give a grammar, and what is wrong with those that do not. A definition is checked
against those before it: it has a flaw, or else it adds one thing to what they define. So definitions
give a grammar just when none has a flaw, one of them names the start rule, and every rule that they
refer to is defined; and otherwise the earliest problem is the answer.
-/
import Mathlib.Data.List.Induction
import Packrat.Proofs.Grammar.Parts

namespace Packrat

/-! ## What definitions define -/

namespace Definition

/-- The rule that the definition has parsing start from. -/
def start? : Definition → Option String
  | .start name => some name
  | _ => none

/-- The rule that the definition adds, with its body. -/
def rule? : Definition → Option (String × Expr)
  | .rule name body => some (name, body)
  | _ => none

/-- The skipper that the definition sets for all rules. -/
def skipper? : Definition → Option Expr
  | .skipper e => some e
  | _ => none

/-- The rule that the definition gives a skipper of its own or none. -/
def override? : Definition → Option (String × Option Expr)
  | .override name e => some (name, e)
  | _ => none

/-- The kind that the definition declares. -/
def kind? : Definition → Option String
  | .kind name _ => some name
  | _ => none

/-- The rule whose results the definition turns into nodes. -/
def production? : Definition → Option String
  | .production name _ => some name
  | _ => none

/-- The rules that the definition refers to and that may be defined after it. -/
def references : Definition → List String
  | .start name => [name]
  | .rule _ body => body.references
  | .skipper e => e.references
  | .override _ e => e.elim [] Expr.references
  | .kind .. | .production .. => []

/-- The names of the rules that some definitions add, in order. -/
def ruleNames (definitions : List Definition) : List String := (definitions.filterMap rule?).map (·.1)

/-- What is wrong with a definition, given those before it. -/
def flaw? (before : List Definition) : Definition → Option GrammarError
  | .start _ => if before.filterMap start? = [] then none else some .duplicateStart
  | .rule name _ => if name ∈ ruleNames before then some (.duplicateRule name) else none
  | .skipper _ => if before.filterMap skipper? = [] then none else some .duplicateSkipper
  | .override name _ =>
    if name ∉ ruleNames before then some (.overrideWithoutRule name)
    else if name ∈ (before.filterMap override?).map (·.1) then some (.duplicateOverride name)
    else none
  | .kind name parent =>
    if name ∈ before.filterMap kind? then some (.duplicateKind name)
    else (parent.filter (· ∉ before.filterMap kind?)).map (.unknownParent name)
  | .production name _ =>
    if name ∉ ruleNames before then some (.productionWithoutRule name)
    else if name ∈ before.filterMap production? then some (.duplicateProduction name)
    else if name ∉ before.filterMap kind? then some (.productionWithoutKind name)
    else none

/-- No definition has a flaw. -/
def Flawless (definitions : List Definition) : Prop :=
  ∀ before d after, definitions = before ++ d :: after → d.flaw? before = none

/-- Definitions that give a grammar. -/
structure Acceptable (definitions : List Definition) : Prop where
  /-- Parsing starts from one rule. -/
  start : ∃ rule, definitions.filterMap start? = [rule]
  /-- No two rules have the same name. -/
  rules : (ruleNames definitions).Nodup
  /-- At most one skipper is set for all rules. -/
  skipper : (definitions.filterMap skipper?).length ≤ 1
  /-- An override is for a rule defined earlier and not yet overridden. -/
  overrides : ∀ before rule skipper after, definitions = before ++ .override rule skipper :: after →
    rule ∈ ruleNames before ∧ rule ∉ (before.filterMap override?).map (·.1)
  /-- A kind is new, and its parent was declared earlier. -/
  kinds : ∀ before name parent after, definitions = before ++ .kind name parent :: after →
    name ∉ before.filterMap kind? ∧ ∀ p, parent = some p → p ∈ before.filterMap kind?
  /-- A production is for a rule and a kind defined earlier, and the first one for that rule. -/
  productions : ∀ before rule fields after, definitions = before ++ .production rule fields :: after →
    rule ∈ ruleNames before ∧ rule ∈ before.filterMap kind? ∧ rule ∉ before.filterMap production?
  /-- All rules that the definitions refer to are defined, be it earlier or later. -/
  references : ∀ name ∈ definitions.flatMap references, name ∈ ruleNames definitions

end Definition

/-! ## Rows and kinds -/

/-- A name is looked up successfully just when there is a row for it. -/
theorem isSome_lookup {α : Type} {rows : List (String × α)} {name : String} :
    (rows.lookup name).isSome = true ↔ name ∈ rows.map (·.1) := by
  simp [List.lookup_isSome_iff, List.mem_map, @eq_comm _ name]

/-- Where no name occurs twice, every row is the one that is looked up. -/
theorem lookup_of_mem {α : Type} {rows : List (String × α)} (h : (rows.map (·.1)).Nodup) {row : String × α}
    (hm : row ∈ rows) : rows.lookup row.1 = some row.2 := by
  obtain ⟨before, after, rfl⟩ := List.append_of_mem hm
  refine List.lookup_eq_some_iff.2 ⟨before, after, rfl, fun other hother => ?_⟩
  rw [List.map_append] at h
  simpa using fun he : row.1 = other.1 =>
    (List.nodup_append.1 h).2.2 other.1 (List.mem_map_of_mem hother) row.1 (by simp) he.symm

theorem filterMap_concat {α β : Type} (f : α → Option β) (l : List α) (a : α) :
    (l ++ [a]).filterMap f = l.filterMap f ++ (f a).toList := by
  cases h : f a <;> simp [List.filterMap_append, h]

namespace Kinds

/-- The names of the kinds, latest first. -/
def names (kinds : Kinds) : List String := kinds.declared.map (·.1)

/-- Every kind was declared below one that was declared before it, or below none. -/
def Descending : List (String × Option String) → Prop
  | [] => True
  | (_, parent) :: earlier => (∀ p, parent = some p → p ∈ earlier.map (·.1)) ∧ Descending earlier

theorem contains_iff {kinds : Kinds} {name : String} : kinds.contains name = true ↔ name ∈ kinds.names := by
  simp [contains, names]

/-- Following parents ends, since it leads to ever earlier declarations. -/
theorem isSome_lineageIn {name : String} : ∀ {declared : List (String × Option String)}, Descending declared →
    ((lineageIn declared name).isSome = true ↔ name ∈ declared.map (·.1))
  | [], _ => by simp [lineageIn]
  | (kind, parent) :: earlier, h => by
    obtain ⟨hparent, hearlier⟩ := h
    unfold lineageIn
    split
    · next hk =>
      subst hk
      cases parent with
      | none => simp
      | some p => simpa using (isSome_lineageIn hearlier).2 (hparent p rfl)
    · next hk =>
      rw [isSome_lineageIn hearlier]
      simp [Ne.symm hk]

end Kinds

/-! ## Drafts -/

namespace Draft

open Definition

/-- The draft has what the definitions define. -/
structure Records (d : Draft) (definitions : List Definition) : Prop where
  start : d.start = (definitions.filterMap start?).head?
  rules : d.grammar.rules = definitions.filterMap rule?
  skipper : d.grammar.skipper = (definitions.filterMap skipper?).head?
  overrides : d.grammar.overrides = definitions.filterMap override?
  kinds : d.grammar.kinds.names = (definitions.filterMap kind?).reverse
  descending : Kinds.Descending d.grammar.kinds.declared
  productions : d.grammar.productions.map (·.1) = definitions.filterMap production?

variable {d : Draft} {before : List Definition}

theorem records_empty {engine : Regex.Engine} : (empty engine).Records [] := ⟨rfl, rfl, rfl, rfl, rfl, trivial, rfl⟩

theorem Records.hasRule (h : d.Records before) {name : String} : d.hasRule name = true ↔ name ∈ ruleNames before := by
  unfold Draft.hasRule Grammar.rule? ruleNames
  rw [isSome_lookup, h.rules]

theorem Records.contains (h : d.Records before) {name : String} :
    d.grammar.kinds.contains name = true ↔ name ∈ before.filterMap kind? := by
  rw [Kinds.contains_iff, h.kinds, List.mem_reverse]

theorem Records.lineage? (h : d.Records before) {name : String} :
    (d.grammar.kinds.lineage? name).isSome = true ↔ name ∈ before.filterMap kind? := by
  rw [Kinds.lineage?, Kinds.isSome_lineageIn h.descending, ← @List.mem_reverse _ _ (before.filterMap kind?), ← h.kinds,
    Kinds.names]

theorem Records.override? (h : d.Records before) {name : String} :
    (d.grammar.override? name).isSome = true ↔ name ∈ (before.filterMap override?).map (·.1) := by
  rw [Grammar.override?, isSome_lookup, h.overrides]

theorem Records.production? (h : d.Records before) {name : String} :
    (d.grammar.production? name).isSome = true ↔ name ∈ before.filterMap production? := by
  rw [Grammar.production?, isSome_lookup, h.productions]

/-- A draft that has got what one more definition defines. -/
theorem Records.next (h : d.Records before) {definition : Definition} {d' : Draft}
    (hstart : d'.start = d.start.or definition.start?)
    (hrules : d'.grammar.rules = d.grammar.rules ++ definition.rule?.toList)
    (hskipper : d'.grammar.skipper = d.grammar.skipper.or definition.skipper?)
    (hoverrides : d'.grammar.overrides = d.grammar.overrides ++ definition.override?.toList)
    (hkinds : d'.grammar.kinds.names = definition.kind?.toList ++ d.grammar.kinds.names)
    (hdescending : Kinds.Descending d'.grammar.kinds.declared)
    (hproductions : d'.grammar.productions.map (·.1) = d.grammar.productions.map (·.1) ++ definition.production?.toList) :
    d'.Records (before ++ [definition]) := by
  refine ⟨?_, ?_, ?_, ?_, ?_, hdescending, ?_⟩
  · rw [hstart, h.start, filterMap_concat, List.head?_append, Option.head?_toList]
  · rw [hrules, h.rules, filterMap_concat]
  · rw [hskipper, h.skipper, filterMap_concat, List.head?_append, Option.head?_toList]
  · rw [hoverrides, h.overrides, filterMap_concat]
  · rw [hkinds, h.kinds, filterMap_concat, List.reverse_append]
    cases definition.kind? <;> rfl
  · rw [hproductions, h.productions, filterMap_concat]

/-- The draft refuses the definition for its flaw, or else records it. -/
def Judges (d : Draft) (before : List Definition) (definition : Definition) : Prop :=
  (∃ error, definition.flaw? before = some error ∧ d.add definition = .error error) ∨
    (definition.flaw? before = none ∧ ∃ d', d.add definition = .ok d' ∧ d'.Records (before ++ [definition]))

theorem rows_stay {α : Type} (l : List α) : l = l ++ (none : Option α).toList := (List.append_nil l).symm

theorem setting_stays {α : Type} (o : Option α) : o = o.or none := Option.or_none.symm

namespace Records

variable (h : d.Records before)
include h

theorem judges_start (name : String) : d.Judges before (.start name) := by
  by_cases hs : before.filterMap start? = []
  · have hnone : d.start = none := by rw [h.start, hs]; rfl
    refine .inr ⟨if_pos hs, { d with start := some name }, by simp [Draft.add, hnone], ?_⟩
    exact h.next (by simp [hnone, start?]) (rows_stay _) (setting_stays _) (rows_stay _) rfl h.descending (rows_stay _)
  · refine .inl ⟨_, if_neg hs, if_pos ?_⟩
    obtain ⟨first, rest, hl⟩ := List.exists_cons_of_ne_nil hs
    rw [h.start, hl]
    rfl

theorem judges_rule (name : String) (body : Expr) : d.Judges before (.rule name body) := by
  by_cases hr : name ∈ ruleNames before
  · exact .inl ⟨_, if_pos hr, if_pos (h.hasRule.2 hr)⟩
  · refine .inr ⟨if_neg hr, _, if_neg (hr ∘ h.hasRule.1), ?_⟩
    exact h.next (setting_stays _) rfl (setting_stays _) (rows_stay _) rfl h.descending (rows_stay _)

theorem judges_skipper (e : Expr) : d.Judges before (.skipper e) := by
  by_cases hs : before.filterMap skipper? = []
  · have hnone : d.grammar.skipper = none := by rw [h.skipper, hs]; rfl
    refine .inr ⟨if_pos hs, { d with grammar.skipper := some e }, by simp [Draft.add, hnone], ?_⟩
    exact h.next (setting_stays _) (rows_stay _) (by simp [hnone, skipper?]) (rows_stay _) rfl h.descending (rows_stay _)
  · refine .inl ⟨_, if_neg hs, if_pos ?_⟩
    obtain ⟨first, rest, hl⟩ := List.exists_cons_of_ne_nil hs
    rw [h.skipper, hl]
    rfl

theorem judges_override (name : String) (e : Option Expr) : d.Judges before (.override name e) := by
  unfold Judges
  by_cases hr : name ∈ ruleNames before
  · have hhas : ¬ (!d.hasRule name) = true := by simp [h.hasRule.2 hr]
    rw [flaw?, if_neg (Classical.not_not.2 hr), Draft.add, if_neg hhas]
    by_cases ho : name ∈ (before.filterMap Definition.override?).map (·.1)
    · exact .inl ⟨_, if_pos ho, if_pos (h.override?.2 ho)⟩
    · refine .inr ⟨if_neg ho, _, if_neg (ho ∘ h.override?.1), ?_⟩
      exact h.next (setting_stays _) (rows_stay _) (setting_stays _) rfl rfl h.descending (rows_stay _)
  · exact .inl ⟨_, if_pos hr, if_pos (by simpa [← h.hasRule] using hr)⟩

theorem judges_kind (name : String) (parent : Option String) : d.Judges before (.kind name parent) := by
  have hadd : d.add (.kind name parent) = (d.grammar.kinds.add name parent).map fun kinds => { d with grammar.kinds := kinds } := by
    rw [Draft.add]
    cases d.grammar.kinds.add name parent <;> rfl
  have hmissing : parent.filter (!d.grammar.kinds.contains ·) = parent.filter (· ∉ before.filterMap kind?) := by
    congr 1
    funext p
    rw [Bool.eq_iff_iff]
    simp [← h.contains]
  unfold Judges
  rw [hadd, Kinds.add, hmissing, flaw?]
  by_cases hk : name ∈ before.filterMap kind?
  · rw [if_pos hk, if_pos (h.contains.2 hk)]
    exact .inl ⟨_, rfl, rfl⟩
  rw [if_neg hk, if_neg (hk ∘ h.contains.1)]
  cases hp : parent.filter (· ∉ before.filterMap kind?) with
  | some missing => exact .inl ⟨_, rfl, rfl⟩
  | none =>
    have hparent (p : String) (he : parent = some p) : p ∈ d.grammar.kinds.names := by
      subst he
      have hdeclared : p ∈ before.filterMap kind? := by simpa [Option.filter_eq_none_iff] using hp
      rwa [← h.contains, Kinds.contains_iff] at hdeclared
    refine .inr ⟨rfl, _, rfl, ?_⟩
    exact h.next (setting_stays _) (rows_stay _) (setting_stays _) (rows_stay _) rfl ⟨hparent, h.descending⟩ (rows_stay _)

theorem judges_production (name : String) (fields : List String) : d.Judges before (.production name fields) := by
  unfold Judges
  by_cases hr : name ∈ ruleNames before
  · have hhas : ¬ (!d.hasRule name) = true := by simp [h.hasRule.2 hr]
    rw [flaw?, if_neg (Classical.not_not.2 hr), Draft.add, if_neg hhas]
    by_cases hp : name ∈ before.filterMap Definition.production?
    · exact .inl ⟨_, if_pos hp, if_pos (h.production?.2 hp)⟩
    rw [if_neg hp, if_neg (hp ∘ h.production?.1)]
    cases hl : d.grammar.kinds.lineage? name with
    | none =>
      refine .inl ⟨_, if_pos fun hk => ?_, rfl⟩
      rw [← h.lineage?, hl] at hk
      cases hk
    | some lineage =>
      refine .inr ⟨if_neg (Classical.not_not.2 (h.lineage?.1 (by rw [hl]; rfl))), _, rfl, ?_⟩
      exact h.next (setting_stays _) (rows_stay _) (setting_stays _) (rows_stay _) rfl h.descending
        (by simp [Definition.production?])
  · exact .inl ⟨_, if_pos hr, if_pos (by simpa [← h.hasRule] using hr)⟩

/-- A definition with a flaw is refused for it, and any other is recorded. -/
theorem judges (definition : Definition) : d.Judges before definition := by
  cases definition with
  | start name => exact h.judges_start name
  | rule name body => exact h.judges_rule name body
  | skipper e => exact h.judges_skipper e
  | override name e => exact h.judges_override name e
  | kind name parent => exact h.judges_kind name parent
  | production name fields => exact h.judges_production name fields

end Records

end Draft

/-! ## Flaws -/

namespace Definition

variable {definitions before after : List Definition} {definition : Definition}

theorem ruleNames_concat : ruleNames (definitions ++ [definition]) = ruleNames definitions ++ (definition.rule?.map (·.1)).toList := by
  unfold ruleNames
  rw [filterMap_concat]
  cases definition.rule? <;> simp

theorem flawless_nil : Flawless [] := fun before _ _ h => by
  cases before <;> cases h

theorem flawless_concat : Flawless (definitions ++ [definition]) ↔ Flawless definitions ∧ definition.flaw? definitions = none := by
  refine ⟨fun h => ⟨fun before d after he => ?_, h definitions definition [] rfl⟩, fun ⟨h, hd⟩ before d after he => ?_⟩
  · exact h before d (after ++ [definition]) (by rw [he]; simp)
  · rcases List.eq_nil_or_concat after with rfl | ⟨after, last, rfl⟩
    · obtain ⟨rfl, hs⟩ := List.append_inj' he rfl
      cases hs
      exact hd
    · have hconcat : definitions ++ [definition] = (before ++ d :: after) ++ [last] := by simpa using he
      exact h before d after (List.append_inj' hconcat rfl).1

section

variable {name : String}

theorem flaw?_start_eq_none : (start name).flaw? before = none ↔ before.filterMap start? = [] := by simp [flaw?]

theorem flaw?_rule_eq_none {body : Expr} : (rule name body).flaw? before = none ↔ name ∉ ruleNames before := by simp [flaw?]

theorem flaw?_skipper_eq_none {e : Expr} : (skipper e).flaw? before = none ↔ before.filterMap skipper? = [] := by simp [flaw?]

theorem flaw?_override_eq_none {e : Option Expr} : (override name e).flaw? before = none ↔
    name ∈ ruleNames before ∧ name ∉ (before.filterMap override?).map (·.1) := by
  rw [flaw?]
  split
  · next hr => simp [hr]
  · next hr => simp [Classical.not_not.1 hr]

theorem flaw?_kind_eq_none {parent : Option String} : (kind name parent).flaw? before = none ↔
    name ∉ before.filterMap kind? ∧ ∀ p, parent = some p → p ∈ before.filterMap kind? := by
  rw [flaw?]
  split
  · next hk => simp [hk]
  · next hk => simp [hk, Option.filter_eq_none_iff]

theorem flaw?_production_eq_none {fields : List String} : (production name fields).flaw? before = none ↔
    name ∈ ruleNames before ∧ name ∈ before.filterMap kind? ∧ name ∉ before.filterMap production? := by
  rw [flaw?]
  split
  · next hr => simp [hr]
  split
  · next hp => simp [hp]
  · next hr hp => simp [Classical.not_not.1 hr, hp]

end

/-- Without flaws nothing is defined twice. -/
theorem Flawless.distinct (h : Flawless definitions) : (definitions.filterMap start?).length ≤ 1 ∧
    (ruleNames definitions).Nodup ∧ (definitions.filterMap skipper?).length ≤ 1 := by
  induction definitions using List.reverseRecOn with
  | nil => simp [ruleNames]
  | append_singleton definitions d ih =>
    obtain ⟨hbefore, hd⟩ := flawless_concat.1 h
    obtain ⟨hstart, hrules, hskipper⟩ := ih hbefore
    rw [filterMap_concat, filterMap_concat, ruleNames_concat]
    cases d with
    | start name =>
      have hnone := flaw?_start_eq_none.1 hd
      simpa [hnone, start?, rule?, skipper?] using ⟨hrules, hskipper⟩
    | rule name body =>
      have hnew := flaw?_rule_eq_none.1 hd
      have hnodup : (ruleNames definitions ++ [name]).Nodup :=
        List.nodup_append.2 ⟨hrules, by simp, fun a ha b hb => by
          rw [List.mem_singleton.1 hb]
          exact fun he => hnew (he ▸ ha)⟩
      simpa [start?, rule?, skipper?] using ⟨hstart, hnodup, hskipper⟩
    | skipper e =>
      have hnone := flaw?_skipper_eq_none.1 hd
      simpa [hnone, start?, rule?, skipper?] using ⟨hstart, hrules⟩
    | _ => simpa [start?, rule?, skipper?] using ⟨hstart, hrules, hskipper⟩

theorem Acceptable.flawless (h : Acceptable definitions) : Flawless definitions := by
  intro before d after he
  have hlength {α : Type} (f : Definition → Option α) : (before.filterMap f).length + (f d).toList.length ≤ (definitions.filterMap f).length := by
    have happend : definitions = (before ++ [d]) ++ after := by simp [he]
    rw [happend, List.filterMap_append, filterMap_concat]
    simp only [List.length_append]
    omega
  cases d with
  | start name =>
    obtain ⟨rule, hrule⟩ := h.start
    have hl := hlength start?
    rw [hrule] at hl
    have hzero : (before.filterMap start?).length + 1 ≤ 1 := hl
    exact flaw?_start_eq_none.2 (List.length_eq_zero_iff.1 (by omega))
  | rule name body =>
    refine flaw?_rule_eq_none.2 fun hr => ?_
    have hrules := h.rules
    rw [he, ruleNames, List.filterMap_append, List.map_append] at hrules
    exact (List.nodup_append.1 hrules).2.2 name hr name (by simp [rule?]) rfl
  | skipper e =>
    have hone : (before.filterMap skipper?).length + 1 ≤ 1 := Nat.le_trans (hlength skipper?) h.skipper
    exact flaw?_skipper_eq_none.2 (List.length_eq_zero_iff.1 (by omega))
  | override name e => exact flaw?_override_eq_none.2 (h.overrides before name e after he)
  | kind name parent => exact flaw?_kind_eq_none.2 (h.kinds before name parent after he)
  | production name fields => exact flaw?_production_eq_none.2 (h.productions before name fields after he)

/-- Definitions without flaws lack no more than a start rule and rules that they refer to. -/
theorem Flawless.acceptable (h : Flawless definitions) (hs : definitions.filterMap start? ≠ [])
    (hr : ∀ name ∈ definitions.flatMap references, name ∈ ruleNames definitions) : Acceptable definitions where
  start := by
    obtain ⟨rule, rest, hl⟩ := List.exists_cons_of_ne_nil hs
    have hone := h.distinct.1
    rw [hl] at hone
    have hnil : rest = [] := List.length_eq_zero_iff.1 (Nat.le_zero.1 (Nat.le_of_succ_le_succ hone))
    exact ⟨rule, hnil ▸ hl⟩
  rules := h.distinct.2.1
  skipper := h.distinct.2.2
  overrides before _ _ after he := flaw?_override_eq_none.1 (h before _ after he)
  kinds before _ _ after he := flaw?_kind_eq_none.1 (h before _ after he)
  productions before _ _ after he := flaw?_production_eq_none.1 (h before _ after he)
  references := hr

end Definition

/-! ## Building -/

namespace Draft

open Definition

/-- Definitions without flaws are all recorded. -/
theorem foldlM_of_flawless {definitions : List Definition} {engine : Regex.Engine} (h : Flawless definitions) :
    ∃ d, definitions.foldlM Draft.add (.empty engine) = .ok d ∧ d.Records definitions := by
  induction definitions using List.reverseRecOn with
  | nil => exact ⟨empty engine, rfl, records_empty⟩
  | append_singleton definitions definition ih =>
    obtain ⟨hbefore, hnone⟩ := flawless_concat.1 h
    obtain ⟨d, hd, hrecords⟩ := ih hbefore
    rcases hrecords.judges definition with ⟨error, herror, -⟩ | ⟨-, d', hadd, hrecords'⟩
    · rw [hnone] at herror
      cases herror
    · refine ⟨d', ?_, hrecords'⟩
      rw [List.foldlM_append, hd]
      show (definition :: []).foldlM Draft.add d = _
      rw [List.foldlM_cons, hadd]
      rfl

/-- The first flaw is the answer, whatever follows. -/
theorem foldlM_of_flaw {before : List Definition} {definition : Definition} {error : GrammarError} {engine : Regex.Engine}
    (h : Flawless before) (herror : definition.flaw? before = some error) (after : List Definition) :
    (before ++ definition :: after).foldlM Draft.add (.empty engine) = .error error := by
  obtain ⟨d, hd, hrecords⟩ := @foldlM_of_flawless _ engine h
  rcases hrecords.judges definition with ⟨other, hother, hadd⟩ | ⟨hnone, -⟩
  · cases hother.symm.trans herror
    rw [List.foldlM_append, hd]
    show (definition :: after).foldlM Draft.add d = _
    rw [List.foldlM_cons, hadd]
    rfl
  · rw [hnone] at herror
    cases herror

/-- Definitions that are not without flaws have a first one. -/
theorem exists_first_flaw {definitions : List Definition} (h : ¬ Flawless definitions) :
    ∃ before definition after error, definitions = before ++ definition :: after ∧ Flawless before ∧
      definition.flaw? before = some error := by
  induction definitions using List.reverseRecOn with
  | nil => exact absurd flawless_nil h
  | append_singleton definitions definition ih =>
    by_cases hbefore : Flawless definitions
    · cases hd : definition.flaw? definitions with
      | none => exact absurd (flawless_concat.2 ⟨hbefore, hd⟩) h
      | some error => exact ⟨definitions, definition, [], error, rfl, hbefore, hd⟩
    · obtain ⟨before, d, after, error, rfl, hflawless, hd⟩ := ih hbefore
      exact ⟨before, d, after ++ [definition], error, by simp, hflawless, hd⟩

variable {d : Draft} {definitions : List Definition}

theorem mem_references {name : String} : name ∈ definitions.flatMap Definition.references ↔
    name ∈ definitions.filterMap start? ∨ (∃ row ∈ definitions.filterMap rule?, name ∈ row.2.references) ∨
      (∃ e ∈ definitions.filterMap skipper?, name ∈ e.references) ∨
        ∃ row ∈ definitions.filterMap Definition.override?, name ∈ row.2.elim [] Expr.references := by
  have hone (definition : Definition) : name ∈ definition.references ↔ definition.start? = some name ∨
      (∃ row, definition.rule? = some row ∧ name ∈ row.2.references) ∨
        (∃ e, definition.skipper? = some e ∧ name ∈ e.references) ∨
          ∃ row, definition.override? = some row ∧ name ∈ row.2.elim [] Expr.references := by
    cases definition <;> simp [Definition.references, start?, rule?, skipper?, Definition.override?, eq_comm]
  simp only [List.mem_flatMap, hone, List.mem_filterMap]
  constructor
  · rintro ⟨a, ha, h | ⟨row, hrow, h⟩ | ⟨e, he, h⟩ | ⟨row, hrow, h⟩⟩
    · exact .inl ⟨a, ha, h⟩
    · exact .inr (.inl ⟨row, ⟨a, ha, hrow⟩, h⟩)
    · exact .inr (.inr (.inl ⟨e, ⟨a, ha, he⟩, h⟩))
    · exact .inr (.inr (.inr ⟨row, ⟨a, ha, hrow⟩, h⟩))
  · rintro (⟨a, ha, h⟩ | ⟨row, ⟨a, ha, hrow⟩, h⟩ | ⟨e, ⟨a, ha, he⟩, h⟩ | ⟨row, ⟨a, ha, hrow⟩, h⟩)
    · exact ⟨a, ha, .inl h⟩
    · exact ⟨a, ha, .inr (.inl ⟨row, hrow, h⟩)⟩
    · exact ⟨a, ha, .inr (.inr (.inl ⟨e, he, h⟩))⟩
    · exact ⟨a, ha, .inr (.inr (.inr ⟨row, hrow, h⟩))⟩

theorem eq_toList_head? {α : Type} {l : List α} (h : l.length ≤ 1) : l = l.head?.toList := by
  rcases l with _ | ⟨a, _ | ⟨b, l⟩⟩
  · rfl
  · rfl
  · simp at h

/-- The finished grammar refers to the rules that the definitions refer to. -/
theorem Records.references (h : d.Records definitions) (hflawless : Flawless definitions) {start : String}
    (hstart : d.start = some start) {name : String} :
    name ∈ Grammar.references { d.grammar with start } ↔ name ∈ definitions.flatMap Definition.references := by
  have hstarts : definitions.filterMap start? = [start] := by
    rw [eq_toList_head? hflawless.distinct.1, ← h.start, hstart]
    rfl
  have hskippers : definitions.filterMap skipper? = d.grammar.skipper.toList := by
    rw [eq_toList_head? hflawless.distinct.2.2, ← h.skipper]
  rw [mem_references, hstarts, hskippers, ← h.rules, ← h.overrides]
  unfold Grammar.references
  simp only [List.mem_cons, List.mem_append, List.mem_flatMap, List.not_mem_nil, or_false]
  cases d.grammar.skipper <;> simp

theorem finish_of_undefined {start name : String} (hstart : d.start = some start)
    (h : (Grammar.references { d.grammar with start }).find?
      (fun name => (Grammar.rule? { d.grammar with start } name).isNone) = some name) :
    d.finish = .error (.unknownRule name) := by
  unfold Draft.finish
  split
  · next hnone => cases hstart.symm.trans hnone
  · next other hother =>
    cases hstart.symm.trans hother
    simp only [h]

theorem finish_of_defined {start : String} (hstart : d.start = some start)
    (h : (Grammar.references { d.grammar with start }).find?
      (fun name => (Grammar.rule? { d.grammar with start } name).isNone) = none) :
    d.finish = .ok { d.grammar with start } := by
  unfold Draft.finish
  split
  · next hnone => cases hstart.symm.trans hnone
  · next other hother =>
    cases hstart.symm.trans hother
    simp only [h]

/-- A draft is finished just when parsing can start and every rule that is referred to is defined. -/
theorem Records.finish (h : d.Records definitions) (hflawless : Flawless definitions) :
    (definitions.filterMap start? = [] ∧ d.finish = .error .noStart) ∨
      (definitions.filterMap start? ≠ [] ∧
        ((∃ name ∈ definitions.flatMap Definition.references, name ∉ ruleNames definitions ∧ d.finish = .error (.unknownRule name)) ∨
          ((∀ name ∈ definitions.flatMap Definition.references, name ∈ ruleNames definitions) ∧
            ∃ g, d.finish = .ok g ∧ g.rules = definitions.filterMap rule?))) := by
  cases hs : d.start with
  | none =>
    refine .inl ⟨List.head?_eq_none_iff.1 (h.start.symm.trans hs), ?_⟩
    rw [Draft.finish, hs]
  | some start =>
    refine .inr ⟨fun hnil => ?_, ?_⟩
    · rw [h.start, hnil] at hs
      cases hs
    let g : Grammar := { d.grammar with start }
    have hundefined {name : String} : (g.rule? name).isNone = true ↔ name ∉ ruleNames definitions := by
      rw [← h.hasRule, Option.isNone_iff_eq_none, ← Option.not_isSome_iff_eq_none]
      rfl
    cases hf : g.references.find? fun name => (g.rule? name).isNone with
    | some name =>
      refine .inl ⟨name, (h.references hflawless hs).1 (List.mem_of_find?_eq_some hf), ?_, finish_of_undefined hs hf⟩
      exact hundefined.1 (by simpa using List.find?_some hf)
    | none =>
      refine .inr ⟨fun name hn => ?_, g, finish_of_defined hs hf, h.rules⟩
      by_contra hmissing
      exact List.find?_eq_none.1 hf name ((h.references hflawless hs).2 hn) (hundefined.2 hmissing)

end Draft

namespace Grammar

open Definition

/-- Definitions without flaws are finished as their draft is. -/
theorem ofDefinitions_of_flawless {definitions : List Definition} {engine : Regex.Engine} (h : Flawless definitions) :
    ∃ d : Draft, d.Records definitions ∧ ofDefinitions definitions engine = d.finish := by
  obtain ⟨d, hd, hrecords⟩ := @Draft.foldlM_of_flawless _ engine h
  refine ⟨d, hrecords, ?_⟩
  rw [ofDefinitions, hd]
  rfl

/-- Definitions give a grammar just when they are acceptable, and its rules are then the ones that they add,
each once and in order. Otherwise the answer is what is wrong with the first definition that has a flaw, and
stays so whatever follows; without flaws it is that there is no start rule, and with one that some rule that
is referred to is not defined. -/
theorem ofDefinitions_accepts (definitions : List Definition) :
    ((∃ g, ofDefinitions definitions = .ok g) ↔ Acceptable definitions) ∧
      (∀ g, ofDefinitions definitions = .ok g → g.rules = definitions.filterMap Definition.rule? ∧
        (g.rules.map (·.1)).Nodup ∧ ∀ row ∈ g.rules, g.rule? row.1 = some row.2) ∧
      (¬ Flawless definitions → ∃ before definition after error, definitions = before ++ definition :: after ∧
        Flawless before ∧ definition.flaw? before = some error ∧
          ∀ more, ofDefinitions (definitions ++ more) = .error error) ∧
      (Flawless definitions → definitions.filterMap start? = [] → ofDefinitions definitions = .error .noStart) ∧
      (Flawless definitions → definitions.filterMap start? ≠ [] → ¬ Acceptable definitions →
        ∃ name ∈ definitions.flatMap Definition.references, name ∉ ruleNames definitions ∧
          ofDefinitions definitions = .error (.unknownRule name)) := by
  by_cases hflawless : Flawless definitions
  · obtain ⟨d, hrecords, hbuilt⟩ := ofDefinitions_of_flawless hflawless
    rw [hbuilt]
    rcases hrecords.finish hflawless with ⟨hs, hfinish⟩ | ⟨hs, ⟨name, hn, hmissing, hfinish⟩ | ⟨hdefined, g, hfinish, hrules⟩⟩
    · refine ⟨⟨?_, fun h => ?_⟩, ?_, fun h => absurd hflawless h, fun _ _ => hfinish, fun _ h => absurd hs h⟩
      · rintro ⟨g, hg⟩
        cases hg.symm.trans hfinish
      · obtain ⟨rule, hrule⟩ := h.start
        cases hs.symm.trans hrule
      · intro g hg
        cases hg.symm.trans hfinish
    · refine ⟨⟨?_, fun h => absurd (h.references name hn) hmissing⟩, ?_, fun h => absurd hflawless h,
        fun _ h => absurd h hs, fun _ _ _ => ⟨name, hn, hmissing, hfinish⟩⟩
      · rintro ⟨g, hg⟩
        cases hg.symm.trans hfinish
      · intro g hg
        cases hg.symm.trans hfinish
    · have hacceptable := hflawless.acceptable hs hdefined
      refine ⟨⟨fun _ => hacceptable, fun _ => ⟨g, hfinish⟩⟩, fun g' hg => ?_, fun h => absurd hflawless h,
        fun _ h => absurd h hs, fun _ _ h => absurd hacceptable h⟩
      cases hfinish.symm.trans hg
      have hnodup : (g.rules.map (·.1)).Nodup := hrules ▸ hacceptable.rules
      exact ⟨hrules, hnodup, fun row hrow => lookup_of_mem hnodup hrow⟩
  · obtain ⟨before, definition, after, error, rfl, hbefore, herror⟩ := Draft.exists_first_flaw hflawless
    have hanswer (more : List Definition) : ofDefinitions ((before ++ definition :: after) ++ more) = .error error := by
      rw [ofDefinitions, List.append_assoc, List.cons_append, Draft.foldlM_of_flaw hbefore herror]
      rfl
    have hthis : ofDefinitions (before ++ definition :: after) = .error error := List.append_nil (before ++ _) ▸ hanswer []
    refine ⟨⟨?_, fun h => absurd h.flawless hflawless⟩, ?_, fun _ => ⟨before, definition, after, error, rfl, hbefore, herror, hanswer⟩,
      fun h => absurd h hflawless, fun h => absurd h hflawless⟩
    · rintro ⟨g, hg⟩
      cases hthis.symm.trans hg
    · intro g hg
      cases hthis.symm.trans hg

/-- Sums of numbers as nodes, with blanks between tokens but not within numbers. -/
def sumDefinitions : List Definition := [
  .start "sum",
  .kind "expression" none,
  .rule "sum" (.choice [.sequence [.rule "sum", .omission (.literal ['+']), .rule "number"], .rule "number"]),
  .kind "sum" (some "expression"),
  .production "sum" ["left", "right"],
  .skipper (.literal [' ']),
  .rule "number" (.repetition (.literal ['1']) ⟨1, none⟩ none),
  .override "number" none]

theorem ofDefinitions_accepts_sums : Acceptable sumDefinitions ∧
    (∀ g, ofDefinitions sumDefinitions = .ok g → g.rules.map (·.1) = ["sum", "number"]) ∧
      (∃ before definition after error, sumDefinitions ++ [.rule "sum" (.literal []), .start "number"] =
        before ++ definition :: after ∧ Flawless before ∧ definition.flaw? before = some error ∧
          ∀ more, ofDefinitions (sumDefinitions ++ [.rule "sum" (.literal []), .start "number"] ++ more) = .error error) ∧
        ofDefinitions [] = .error .noStart ∧
          ∃ name ∈ ["sum"], name ∉ ruleNames [.start "sum"] ∧ ofDefinitions [.start "sum"] = .error (.unknownRule name) := by
  have hbuilt : ∃ g, ofDefinitions sumDefinitions = .ok g := by
    have hok : (ofDefinitions sumDefinitions).isOk = true := by decide +kernel
    cases hg : ofDefinitions sumDefinitions with
    | ok g => exact ⟨g, rfl⟩
    | error error =>
      rw [hg] at hok
      cases hok
  have hflaw : ¬ Flawless (sumDefinitions ++ [.rule "sum" (.literal []), .start "number"]) := fun h =>
    absurd (h sumDefinitions (.rule "sum" (.literal [])) [.start "number"] rfl) (by decide)
  have hstart : Flawless [.start "sum"] := flawless_concat.2 ⟨flawless_nil, rfl⟩
  have hlacks : ¬ Acceptable [.start "sum"] := fun h => absurd (h.references "sum" (by decide)) (by decide)
  refine ⟨(ofDefinitions_accepts sumDefinitions).1.1 hbuilt, fun g hg => ?_, (ofDefinitions_accepts _).2.2.1 hflaw,
    (ofDefinitions_accepts []).2.2.2.1 flawless_nil rfl, (ofDefinitions_accepts _).2.2.2.2 hstart (by decide) hlacks⟩
  rw [((ofDefinitions_accepts sumDefinitions).2.1 g hg).1]
  rfl

end Grammar

end Packrat

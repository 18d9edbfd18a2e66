/-
Kinds of nodes form a forest. A kind is declared below a kind that is declared already, so going from a
kind to its parent, to the parent's parent and so on never comes back and ends at a kind without parent,
whatever was declared in which order and whatever was refused in between. The lineage of a kind is the way
that this takes, a later declaration does not change it, and a node is of all the kinds on it.
-/
import Mathlib.Logic.Relation
import Packrat.Proofs.Grammar.Acceptance
import Packrat.Tree.Basic

namespace Packrat

namespace Kinds

/-! ## Declaring -/

/-- The kinds after a declaration; one that is refused changes nothing. -/
def tryAdd (kinds : Kinds) (name : String) (parent : Option String) : Kinds :=
  match kinds.add name parent with
  | .ok more => more
  | .error _ => kinds

/-- The kinds after some declarations. -/
def addAll (kinds : Kinds) (declarations : List (String × Option String)) : Kinds :=
  declarations.foldl (fun kinds declaration => kinds.tryAdd declaration.1 declaration.2) kinds

/-- The parent that a kind is declared below, if any; nothing if the kind is not declared. -/
def parent? (kinds : Kinds) (name : String) : Option (Option String) := kinds.declared.lookup name

variable {kinds more : Kinds} {name : String} {parent : Option String} {declarations later : List (String × Option String)}

theorem addAll_append : kinds.addAll (declarations ++ later) = (kinds.addAll declarations).addAll later :=
  List.foldl_append

/-- What is declared is new, its parent is not, and it is all that changes. -/
theorem add_eq_ok_iff : kinds.add name parent = .ok more ↔
    name ∉ kinds.names ∧ (∀ p, parent = some p → p ∈ kinds.names) ∧ more = ⟨(name, parent) :: kinds.declared⟩ := by
  unfold add
  rw [← contains_iff]
  cases hname : kinds.contains name with
  | true => simp
  | false =>
    cases parent with
    | none => simp [eq_comm]
    | some p =>
      rw [Option.filter_some]
      cases hp : kinds.contains p with
      | true => simp [contains_iff.1 hp, eq_comm]
      | false => simp [← contains_iff, hp]

/-- A declaration is refused and changes nothing, or it is not. -/
theorem tryAdd_cases (kinds : Kinds) (name : String) (parent : Option String) :
    (∃ e, kinds.add name parent = .error e) ∧ kinds.tryAdd name parent = kinds ∨
      kinds.add name parent = .ok (kinds.tryAdd name parent) := by
  unfold tryAdd
  cases kinds.add name parent with
  | ok more => exact .inr rfl
  | error e => exact .inl ⟨⟨e, rfl⟩, rfl⟩

theorem tryAdd_of_ok (h : kinds.add name parent = .ok more) : kinds.tryAdd name parent = more := by
  rw [tryAdd, h]

theorem tryAdd_of_error {e : GrammarError} (h : kinds.add name parent = .error e) : kinds.tryAdd name parent = kinds := by
  rw [tryAdd, h]

/-! ## What declarations keep -/

/-- No kind is declared twice, and every kind below one that was declared before it. -/
structure Ordered (kinds : Kinds) : Prop where
  descending : Descending kinds.declared
  nodup : kinds.names.Nodup

theorem ordered_empty : empty.Ordered := ⟨trivial, List.nodup_nil⟩

theorem Ordered.add (h : kinds.Ordered) (hadd : kinds.add name parent = .ok more) : more.Ordered := by
  obtain ⟨hname, hparent, rfl⟩ := add_eq_ok_iff.1 hadd
  exact ⟨⟨hparent, h.descending⟩, List.nodup_cons.2 ⟨hname, h.nodup⟩⟩

theorem Ordered.tryAdd (h : kinds.Ordered) (name : String) (parent : Option String) : (kinds.tryAdd name parent).Ordered := by
  rcases tryAdd_cases kinds name parent with ⟨-, heq⟩ | hadd
  · rwa [heq]
  · exact h.add hadd

theorem Ordered.addAll (h : kinds.Ordered) (declarations : List (String × Option String)) :
    (kinds.addAll declarations).Ordered := by
  induction declarations generalizing kinds with
  | nil => exact h
  | cons declaration rest ih => exact ih (h.tryAdd declaration.1 declaration.2)

/-- The lineage of a kind is looked for where the kind was declared. -/
theorem lineageIn_cons_of_ne {kind : String} {earlier : List (String × Option String)} (h : kind ≠ name) :
    lineageIn ((kind, parent) :: earlier) name = lineageIn earlier name := if_neg h

/-- Whatever a declaration comes to, what is known of a declared kind stays, and so does what is known of any
other name than the one it is about. -/
theorem tryAdd_keeps {kind : String} (h : kind ∈ kinds.names ∨ kind ≠ name) :
    (kinds.tryAdd name parent).parent? kind = kinds.parent? kind ∧
      (kinds.tryAdd name parent).lineage? kind = kinds.lineage? kind := by
  rcases tryAdd_cases kinds name parent with ⟨-, heq⟩ | hadd
  · rw [heq]
    exact ⟨rfl, rfl⟩
  · obtain ⟨hname, -, heq⟩ := add_eq_ok_iff.1 hadd
    have hne : kind ≠ name := h.elim (fun hkind he => hname (he ▸ hkind)) id
    rw [heq]
    refine ⟨?_, lineageIn_cons_of_ne hne.symm⟩
    rw [parent?, List.lookup_cons, beq_false_of_ne hne]
    rfl

theorem mem_names_tryAdd {kind : String} (h : kind ∈ kinds.names) : kind ∈ (kinds.tryAdd name parent).names := by
  rcases tryAdd_cases kinds name parent with ⟨-, heq⟩ | hadd
  · rwa [heq]
  · obtain ⟨-, -, heq⟩ := add_eq_ok_iff.1 hadd
    rw [heq]
    exact List.mem_cons_of_mem _ h

theorem addAll_keeps {kind : String} (h : kind ∈ kinds.names ∨ ∀ declaration ∈ later, declaration.1 ≠ kind) :
    (kinds.addAll later).parent? kind = kinds.parent? kind ∧ (kinds.addAll later).lineage? kind = kinds.lineage? kind := by
  induction later generalizing kinds with
  | nil => exact ⟨rfl, rfl⟩
  | cons declaration rest ih =>
    obtain ⟨p, parent⟩ := declaration
    have hfirst : kind ∈ kinds.names ∨ kind ≠ p := h.imp_right fun hne => (hne (p, parent) List.mem_cons_self).symm
    have hrest : kind ∈ (kinds.tryAdd p parent).names ∨ ∀ declaration ∈ rest, declaration.1 ≠ kind :=
      h.imp mem_names_tryAdd fun hne other ho => hne other (List.mem_cons_of_mem _ ho)
    obtain ⟨hparent, hlineage⟩ := tryAdd_keeps hfirst
    exact ⟨(ih hrest).1.trans hparent, (ih hrest).2.trans hlineage⟩

/-- A kind has the parent that it was declared below when it was declared. -/
theorem parent?_addAll_iff : (empty.addAll declarations).parent? name = some parent ↔
    ∃ before after more, declarations = before ++ (name, parent) :: after ∧
      (empty.addAll before).add name parent = .ok more := by
  constructor
  · induction declarations using List.reverseRecOn with
    | nil => exact nofun
    | append_singleton before declaration ih =>
      obtain ⟨kind, p⟩ := declaration
      intro h
      rw [addAll_append] at h
      by_cases hname : name = kind ∧ ∃ more, (empty.addAll before).add kind p = .ok more
      · obtain ⟨rfl, more, hadd⟩ := hname
        have hmore : (empty.addAll before).addAll [(name, p)] = more := tryAdd_of_ok hadd
        obtain ⟨-, -, rfl⟩ := add_eq_ok_iff.1 hadd
        rw [hmore, parent?, List.lookup_cons_self] at h
        cases h
        exact ⟨before, [], _, rfl, hadd⟩
      · have hsame : (empty.addAll before).parent? name = some parent := by
          rcases tryAdd_cases (empty.addAll before) kind p with ⟨-, heq⟩ | hadd
          · rwa [show (empty.addAll before).addAll [(kind, p)] = empty.addAll before from heq] at h
          · rw [← (tryAdd_keeps (.inr fun he => hname ⟨he, _, hadd⟩)).1]
            exact h
        obtain ⟨front, after, more, rfl, hadd⟩ := ih hsame
        exact ⟨front, after ++ [(kind, p)], more, by simp, hadd⟩
  · rintro ⟨before, after, more, rfl, hadd⟩
    rw [addAll_append]
    have hmore : (empty.addAll before).tryAdd name parent = more := tryAdd_of_ok hadd
    show (((empty.addAll before).tryAdd name parent).addAll after).parent? name = some parent
    obtain ⟨-, -, rfl⟩ := add_eq_ok_iff.1 hadd
    rw [hmore, (addAll_keeps (.inl List.mem_cons_self)).1, parent?, List.lookup_cons_self]

/-! ## Lineages -/

/-- A parent is declared. -/
theorem mem_of_lookup_eq_some {p : String} : ∀ {declared : List (String × Option String)}, Descending declared →
    declared.lookup name = some (some p) → p ∈ declared.map (·.1)
  | [], _, h => by cases h
  | (kind, parent) :: earlier, ⟨hparent, hearlier⟩, h => by
    rw [List.lookup_cons] at h
    split at h
    · exact List.mem_cons_of_mem _ (hparent p (Option.some.inj h))
    · exact List.mem_cons_of_mem _ (mem_of_lookup_eq_some hearlier h)

/-- The lineage of a kind is the kind and the lineage of its parent. -/
theorem lineageIn_eq : ∀ {declared : List (String × Option String)}, Descending declared → (declared.map (·.1)).Nodup →
    lineageIn declared name = (declared.lookup name).bind fun parent =>
      (parent.elim (some []) (lineageIn declared)).map (name :: ·)
  | [], _, _ => rfl
  | (kind, parent) :: earlier, ⟨hparent, hearlier⟩, hnodup => by
    have hkind : kind ∉ earlier.map (·.1) := (List.nodup_cons.1 hnodup).1
    -- a kind declared earlier has the lineage that it had then
    have hbefore : ∀ p ∈ earlier.map (·.1), lineageIn ((kind, parent) :: earlier) p = lineageIn earlier p := fun p hp =>
      lineageIn_cons_of_ne fun he => hkind (he ▸ hp)
    by_cases hk : kind = name
    · subst hk
      rw [List.lookup_cons_self, Option.bind_some]
      cases parent with
      | none => exact if_pos rfl
      | some p =>
        rw [Option.elim_some, hbefore p (hparent p rfl)]
        exact if_pos rfl
    · rw [lineageIn_cons_of_ne hk, lineageIn_eq hearlier (List.nodup_cons.1 hnodup).2, List.lookup_cons,
        beq_false_of_ne (Ne.symm hk)]
      refine Option.bind_congr fun parent hl => ?_
      cases parent with
      | none => rfl
      | some p => rw [Option.elim_some, Option.elim_some, hbefore p (mem_of_lookup_eq_some hearlier hl)]

/-- In a lineage stand declared kinds. -/
theorem mem_of_lineageIn {declared : List (String × Option String)} {lineage : List String}
    (h : lineageIn declared name = some lineage) : ∀ kind ∈ lineage, kind ∈ declared.map (·.1) := by
  fun_induction lineageIn declared name generalizing lineage with
  | case1 => cases h
  | case2 earlier name =>
    cases h
    exact List.forall_mem_singleton.2 List.mem_cons_self
  | case3 earlier name p ih =>
    obtain ⟨above, habove, rfl⟩ := Option.map_eq_some_iff.1 h
    exact List.forall_mem_cons.2 ⟨List.mem_cons_self, fun kind hk => List.mem_cons_of_mem _ (ih habove kind hk)⟩
  | case4 kind parent earlier name hne ih => exact fun k hk => List.mem_cons_of_mem _ (ih h k hk)

/-- No kind occurs twice in a lineage, since those above a kind were declared before it. -/
theorem nodup_of_lineageIn {declared : List (String × Option String)} {lineage : List String}
    (hnodup : (declared.map (·.1)).Nodup) (h : lineageIn declared name = some lineage) : lineage.Nodup := by
  fun_induction lineageIn declared name generalizing lineage with
  | case1 => cases h
  | case2 earlier name =>
    cases h
    exact List.nodup_cons.2 ⟨List.not_mem_nil, List.nodup_nil⟩
  | case3 earlier name p ih =>
    obtain ⟨above, habove, rfl⟩ := Option.map_eq_some_iff.1 h
    obtain ⟨hname, hearlier⟩ := List.nodup_cons.1 hnodup
    exact List.nodup_cons.2 ⟨fun hmem => hname (mem_of_lineageIn habove name hmem), ih hearlier habove⟩
  | case4 kind parent earlier name hne ih => exact ih (List.nodup_cons.1 hnodup).2 h

/-- A lineage begins with the kind and goes on with the lineage of the parent. -/
theorem Ordered.of_lineage? (h : kinds.Ordered) {lineage : List String} (hl : kinds.lineage? name = some lineage) :
    ∃ parent above, kinds.parent? name = some parent ∧ lineage = name :: above ∧
      parent.elim (some []) kinds.lineage? = some above := by
  rw [lineage?, lineageIn_eq h.descending h.nodup] at hl
  obtain ⟨parent, hparent, hl⟩ := Option.bind_eq_some_iff.1 hl
  obtain ⟨above, habove, rfl⟩ := Option.map_eq_some_iff.1 hl
  exact ⟨parent, above, hparent, rfl, habove⟩

theorem Ordered.isSome_lineage? (h : kinds.Ordered) : (kinds.lineage? name).isSome = kinds.contains name := by
  rw [Bool.eq_iff_iff, contains_iff]
  exact isSome_lineageIn h.descending

theorem isSome_parent? : (kinds.parent? name).isSome = kinds.contains name := by
  rw [Bool.eq_iff_iff, contains_iff]
  exact isSome_lookup

/-! ## Climbing -/

/-- Climbing from a kind, or from none, with the kinds passed so far: each kind is looked up, passed and left for
its parent. It ends with all that were passed behind a kind without parent, and with nothing at a name that is
not declared. -/
inductive Climbs (kinds : Kinds) : Option String → List String → Option (List String) → Prop
  | top {passed : List String} : Climbs kinds none passed (some passed)
  | lost {kind : String} {passed : List String} : kinds.parent? kind = none → Climbs kinds (some kind) passed none
  | up {kind : String} {parent : Option String} {passed : List String} {result : Option (List String)} :
    kinds.parent? kind = some parent → Climbs kinds parent (passed ++ [kind]) result →
      Climbs kinds (some kind) passed result

/-- Climbing from a declared kind passes its lineage. -/
theorem Ordered.climbs_of_lineage? (h : kinds.Ordered) : ∀ {lineage : List String} {name : String} (passed : List String),
    kinds.lineage? name = some lineage → kinds.Climbs (some name) passed (some (passed ++ lineage))
  | [], _, _, hl => by
    obtain ⟨_, _, -, heq, -⟩ := h.of_lineage? hl
    cases heq
  | kind :: _, _, passed, hl => by
    obtain ⟨parent, _, hparent, heq, habove⟩ := h.of_lineage? hl
    cases heq
    refine .up hparent ?_
    cases parent with
    | none =>
      cases habove
      exact .top
    | some p =>
      have hclimbs := h.climbs_of_lineage? (passed ++ [kind]) habove
      rwa [List.append_assoc, List.singleton_append] at hclimbs

/-- Climbing ends from every name, with what is looked up as its lineage. -/
theorem Ordered.climbs (h : kinds.Ordered) (name : String) : kinds.Climbs (some name) [] (kinds.lineage? name) := by
  cases hl : kinds.lineage? name with
  | some lineage => exact h.climbs_of_lineage? [] hl
  | none =>
    refine .lost (Option.isNone_iff_eq_none.1 ?_)
    rw [← Option.not_isSome, isSome_parent?, ← h.isSome_lineage?, hl]
    rfl

/-! ## Nodes -/

/-- A kind is declared right below another. -/
def Below (kinds : Kinds) (name parent : String) : Prop := kinds.parent? name = some (some parent)

/-- In a lineage stand the kinds that parents lead to. -/
theorem Ordered.mem_lineage_iff (h : kinds.Ordered) {kind : String} : ∀ {lineage : List String} {name : String},
    kinds.lineage? name = some lineage → (kind ∈ lineage ↔ Relation.ReflTransGen kinds.Below name kind)
  | [], _, hl => by
    obtain ⟨_, _, -, heq, -⟩ := h.of_lineage? hl
    cases heq
  | _ :: _, _, hl => by
    obtain ⟨parent, _, hparent, heq, habove⟩ := h.of_lineage? hl
    cases heq
    rw [List.mem_cons, Relation.ReflTransGen.cases_head_iff, eq_comm]
    refine or_congr_right ?_
    cases parent with
    | none =>
      cases habove
      refine iff_of_false List.not_mem_nil ?_
      rintro ⟨p, hp, -⟩
      cases hparent.symm.trans hp
    | some p =>
      rw [h.mem_lineage_iff habove]
      refine ⟨fun hpath => ⟨p, hparent, hpath⟩, ?_⟩
      rintro ⟨q, hq, hpath⟩
      cases hparent.symm.trans hq
      exact hpath

/-- Kinds that form a forest: from each, parents lead to an end, and its lineage is the way there. -/
structure Forest (kinds : Kinds) : Prop where
  /-- Climbing ends from every name. -/
  climbs : ∀ name, kinds.Climbs (some name) [] (kinds.lineage? name)
  /-- The declared names are those with a lineage. -/
  declared : ∀ name, (kinds.lineage? name).isSome = kinds.contains name ∧ (kinds.parent? name).isSome = kinds.contains name
  /-- A lineage begins with the kind and goes on with that of its parent, if there is one. -/
  continues : ∀ {name lineage}, kinds.lineage? name = some lineage → ∃ parent above,
    kinds.parent? name = some parent ∧ lineage = name :: above ∧ parent.elim (some []) kinds.lineage? = some above
  /-- No kind stands twice in a lineage. -/
  nodup : ∀ {name lineage}, kinds.lineage? name = some lineage → lineage.Nodup
  /-- A node with the lineage of a kind is of that kind and of all to which parents lead from it. -/
  isKind : ∀ {name lineage}, kinds.lineage? name = some lineage → ∀ place fields kind,
    (Tree.node place lineage fields).isKind kind = true ↔ Relation.ReflTransGen kinds.Below name kind

theorem Ordered.forest (h : kinds.Ordered) : kinds.Forest where
  climbs := h.climbs
  declared _ := ⟨h.isSome_lineage?, isSome_parent?⟩
  continues := h.of_lineage?
  nodup := nodup_of_lineageIn h.nodup
  isKind hl _ _ _ := List.contains_iff_mem.trans (h.mem_lineage_iff hl)

/-- Whatever was declared, and tried to be, the kinds form a forest: a kind is below the parent that it was declared
with, nodes are of the kinds that parents lead to, and later declarations do not change lineages. -/
theorem addAll_forest (declarations : List (String × Option String)) :
    (empty.addAll declarations).Forest ∧
      (∀ name parent e, (empty.addAll declarations).add name parent = .error e →
        empty.addAll (declarations ++ [(name, parent)]) = empty.addAll declarations) ∧
      (∀ name parent, (empty.addAll declarations).parent? name = some parent ↔ ∃ before after more,
        declarations = before ++ (name, parent) :: after ∧ (empty.addAll before).add name parent = .ok more) ∧
      (∀ name later, ((empty.addAll declarations).contains name = true ∨ ∀ declaration ∈ later, declaration.1 ≠ name) →
        (empty.addAll (declarations ++ later)).lineage? name = (empty.addAll declarations).lineage? name) ∧
      ∀ name lineage, (empty.addAll declarations).lineage? name = some lineage → ∀ place fields kind parent,
        (Tree.node place lineage fields).isKind kind = true → (empty.addAll declarations).parent? kind = some (some parent) →
          (Tree.node place lineage fields).isKind parent = true := by
  have hforest : (empty.addAll declarations).Forest := (ordered_empty.addAll declarations).forest
  refine ⟨hforest, fun name parent e h => ?_, fun _ _ => parent?_addAll_iff, fun name later h => ?_, ?_⟩
  · rw [addAll_append]
    exact tryAdd_of_error h
  · rw [addAll_append]
    exact (addAll_keeps (h.imp_left contains_iff.1)).2
  · intro name lineage hl place fields kind parent hkind hparent
    rw [hforest.isKind hl] at hkind ⊢
    exact hkind.tail hparent

/-- The first and the last declaration are refused. -/
example : (empty.addAll [("sum", some "term"), ("term", none), ("sum", some "term"), ("term", some "sum")]).lineage? "sum" =
    some ["sum", "term"] := by decide

end Kinds

end Packrat

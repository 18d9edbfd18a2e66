/-
Shapes of results that parsing is careful with. A hollow tree is a list of nothing but hollow trees:
it tells nothing of the input. A tree lies in some locations when it stands between two of them and,
if it is a list, all its items lie there too; a merge takes such items one by one. Something holds
everywhere in a tree when it holds of the tree and of all items and fields in it.
-/
import Packrat.Grammar.Basic
import Packrat.Tree.Basic

namespace Packrat

namespace Tree

/-- A list of nothing but such lists. -/
inductive Hollow : Tree → Prop
  | list {place : Placement} {items : List Tree} : (∀ item ∈ items, Hollow item) → Hollow (.list place items)

theorem hollow_list {place : Placement} {items : List Tree} :
    (list place items).Hollow ↔ ∀ item ∈ items, item.Hollow :=
  ⟨fun h => by cases h; assumption, .list⟩

theorem hollow_of_isNil {t : Tree} (h : t.isNil = true) : t.Hollow := by
  cases t with
  | list place items =>
    have : items = [] := by simpa [isNil] using h
    subst this
    exact .list (by simp)
  | text | found | node => simp [isNil] at h

@[simp] theorem hollow_setPlace {t : Tree} {place : Placement} : (t.setPlace place).Hollow ↔ t.Hollow := by
  cases t with
  | list => simp only [setPlace, hollow_list]
  | text | found | node => exact ⟨fun h => (nomatch h), fun h => (nomatch h)⟩

@[simp] theorem hollow_inside {t : Tree} {outer : Span} : (t.inside outer).Hollow ↔ t.Hollow := hollow_setPlace

@[simp] theorem hollow_widened {t : Tree} : t.widened.Hollow ↔ t.Hollow := hollow_setPlace

/-- Stands between two of the locations, as do the items of a list. -/
inductive Lies (P : Location → Prop) : Tree → Prop
  | intro {t : Tree} : P t.extent.start → P t.extent.stop →
    (∀ items, t.items? = some items → ∀ item ∈ items, Lies P item) → Lies P t

variable {P R : Location → Prop} {t : Tree}

theorem Lies.start : t.Lies P → P t.extent.start
  | intro h _ _ => h

theorem Lies.stop : t.Lies P → P t.extent.stop
  | intro _ h _ => h

theorem Lies.item {place : Placement} {items : List Tree} {item : Tree} :
    (list place items).Lies P → item ∈ items → item.Lies P
  | intro _ _ h, hm => h _ rfl _ hm

theorem Lies.mono (h : ∀ l, P l → R l) (ht : t.Lies P) : t.Lies R := by
  induction ht with
  | intro h1 h2 _ ih => exact .intro (h _ h1) (h _ h2) ih

theorem Lies.setPlace {place : Placement} (ht : t.Lies P) (h1 : P place.extent.start) (h2 : P place.extent.stop) :
    (t.setPlace place).Lies P := by
  refine .intro (by simpa [extent] using h1) (by simpa [extent] using h2) fun items hi => ?_
  obtain ⟨-, -, h⟩ := ht
  exact h items (by cases t <;> simp_all [Tree.setPlace, items?])

theorem Lies.inside {outer : Span} (ht : t.Lies P) (h1 : P outer.start) (h2 : P outer.stop) :
    (t.inside outer).Lies P := by
  obtain ⟨-, -, h⟩ := ht
  refine .intro (by simpa using h1) (by simpa using h2) fun items hi => ?_
  exact h items (by cases t <;> simp_all [Tree.inside, Tree.setPlace, items?])

theorem Lies.widened (ht : t.Lies P) : t.widened.Lies P := ht.setPlace ht.start ht.stop

/-! ## Trees within trees -/

/-- The items of a list, the fields of a node. -/
def children : Tree → List Tree
  | .list _ items => items
  | .node _ _ fields => fields.map (·.2)
  | .text .. | .found .. => []

@[simp] theorem children_setPlace (t : Tree) (place : Placement) : (t.setPlace place).children = t.children := by
  cases t <;> rfl

@[simp] theorem children_inside (t : Tree) (outer : Span) : (t.inside outer).children = t.children :=
  children_setPlace _ _

@[simp] theorem children_widened (t : Tree) : t.widened.children = t.children := children_setPlace _ _

@[simp] theorem children_movedTo (t : Tree) (span : Span) : (t.movedTo span).children = t.children :=
  children_setPlace _ _

theorem children_eq_nil_of_isNil (h : t.isNil = true) : t.children = [] := by
  cases t <;> simp_all [isNil, children]

/-- Holds of a tree and of all trees in it. -/
inductive Everywhere (P : Tree → Prop) : Tree → Prop
  | intro {t : Tree} : P t → (∀ child ∈ t.children, Everywhere P child) → Everywhere P t

section

variable {P : Tree → Prop}

theorem Everywhere.here : t.Everywhere P → P t
  | intro h _ => h

theorem Everywhere.child {child : Tree} : t.Everywhere P → child ∈ t.children → child.Everywhere P
  | intro _ h, hc => h _ hc

theorem Everywhere.imp {Q : Tree → Prop} (h : ∀ t, P t → Q t) (ht : t.Everywhere P) : t.Everywhere Q := by
  induction ht with
  | intro hp _ ih => exact .intro (h _ hp) ih

/-- It is enough to look at the tree itself where all that is in it stems from another tree. -/
theorem Everywhere.of_children {u : Tree} (h : t.Everywhere P) (hu : P u)
    (hc : ∀ child ∈ u.children, child = t ∨ child ∈ t.children) : u.Everywhere P := by
  refine .intro hu fun child hm => ?_
  rcases hc child hm with rfl | hm
  · exact h
  · exact h.child hm

end

end Tree

/-! ## Productions -/

section

variable {t t' : Tree} {name : String}

/-- A production makes a node that stands where its fields come from. -/
theorem Production.node_eq_ok {p : Production} (h : p.node name t = .ok t') :
    t'.place = .own t.extent ∧ (t'.children = [t] ∨ t'.children.Sublist t.children) ∧ ¬ t'.Hollow := by
  unfold node at h
  split at h
  · cases h
    exact ⟨rfl, .inl rfl, nofun⟩
  · simp only at h
    split at h
    · next hlength =>
      cases h
      refine ⟨rfl, .inr ?_, nofun⟩
      have hitems : (t.items?.getD []).Sublist t.children := by
        cases t <;> simp [Tree.items?, Tree.children]
      show ((p.fields.zip (t.items?.getD [])).map Prod.snd).Sublist t.children
      rw [List.map_snd_zip (Nat.le_of_eq hlength)]
      exact hitems
    · cases h

/-- What a rule gives is its result made wider, or a node that stands where the result does. -/
theorem Grammar.produce_eq_ok {g : Grammar} (h : g.produce name t = .ok t') : t' = t.widened ∨
    t'.place = .own t.extent ∧ (t'.children = [t] ∨ t'.children.Sublist t.children) ∧ ¬ t'.Hollow := by
  unfold produce at h
  split at h
  · exact .inr (Production.node_eq_ok h)
  · cases h
    exact .inl rfl

/-- What a rule gives lies where its result lies. -/
theorem Grammar.lies_produce {g : Grammar} {P : Location → Prop} (h : g.produce name t = .ok t') (ht : t.Lies P) :
    t'.Lies P := by
  have node (lineage : List String) (fields : List (String × Tree)) : (Tree.node (.own t.extent) lineage fields).Lies P :=
    .intro ht.start ht.stop nofun
  unfold produce at h
  split at h
  · unfold Production.node at h
    split at h
    · cases h
      exact node _ _
    · simp only at h
      split at h
      · cases h
        exact node _ _
      · cases h
  · cases h
    exact ht.widened

theorem Grammar.place_produce {g : Grammar} (h : g.produce name t = .ok t') : t'.place = .own t.extent := by
  rcases produce_eq_ok h with rfl | ⟨hp, -, -⟩
  · simp [Tree.widened]
  · exact hp

end

end Packrat

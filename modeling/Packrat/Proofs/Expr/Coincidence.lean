/-
Equal trees and expressions in the same places. Equality looks at content alone. A fallback is put where its
repetition began, but what is in it stays where it was made, so equal expressions coincide if they have what is
in their fallbacks in the same places.
-/
import Mathlib.Data.List.Forall2
import Packrat.Expr.Display
import Packrat.Proofs.Correspondence.Laws
import Packrat.Proofs.Expr.Content

namespace Packrat

/-! ## Trees -/

namespace Tree

mutual

/-- Where a tree stands and all that is in it, from left to right. -/
def places : Tree → List Placement
  | .text place _ | .found place _ => [place]
  | .list place items => place :: placesAll items
  | .node place _ fields => place :: placesFields fields

/-- Where some trees stand and all that is in them. -/
def placesAll : List Tree → List Placement
  | [] => []
  | t :: rest => t.places ++ placesAll rest

/-- Where the trees in some fields stand and all that is in them. -/
def placesFields : List (String × Tree) → List Placement
  | [] => []
  | (_, t) :: rest => t.places ++ placesFields rest

end

/-- Where all that is in a tree stands. -/
def innerPlaces (t : Tree) : List Placement := t.places.tail

/-- Trees of equal content that stand in the same places, at every level. -/
structure Coincides (t u : Tree) : Prop where
  same : t.same u = true
  places : t.places = u.places

variable {t u : Tree}

theorem places_eq_cons (t : Tree) : t.places = t.place :: t.innerPlaces := by
  cases t <;> simp only [innerPlaces, places, place, List.tail_cons]

theorem innerPlaces_setPlace (t : Tree) (place : Placement) : (t.setPlace place).innerPlaces = t.innerPlaces := by
  cases t <;> simp only [innerPlaces, setPlace, places, List.tail_cons]

theorem content_setPlace (t : Tree) (place : Placement) : (t.setPlace place).content = t.content := by
  cases t <;> simp only [setPlace, content]

mutual

theorem length_places_content : ∀ t : Tree, t.content.places.length = t.places.length
  | .text .. | .found .. => by simp only [content, places, List.length_cons]
  | .list _ items => by simp only [content, places, List.length_cons, length_placesAll_content items]
  | .node _ _ fields => by simp only [content, places, List.length_cons, length_placesFields_content fields]

theorem length_placesAll_content : ∀ ts : List Tree, (placesAll (contentAll ts)).length = (placesAll ts).length
  | [] => rfl
  | t :: rest => by
    simp only [contentAll, placesAll, List.length_append, length_places_content t, length_placesAll_content rest]

theorem length_placesFields_content : ∀ fields : List (String × Tree),
    (placesFields (contentFields fields)).length = (placesFields fields).length
  | [] => rfl
  | (_, t) :: rest => by
    simp only [contentFields, placesFields, List.length_append, length_places_content t, length_placesFields_content rest]

end

/-- Trees of equal content have as many places. -/
theorem length_places_of_same (h : t.same u = true) : t.places.length = u.places.length := by
  rw [← length_places_content t, same_iff.1 h, length_places_content u]

namespace Coincides

theorem refl (t : Tree) : t.Coincides t := ⟨same_iff.2 rfl, rfl⟩

theorem place (h : t.Coincides u) : t.place = u.place := by
  have hplaces := h.places
  rw [places_eq_cons t, places_eq_cons u] at hplaces
  exact (List.cons.inj hplaces).1

theorem innerPlaces (h : t.Coincides u) : t.innerPlaces = u.innerPlaces := by
  have hplaces := h.places
  rw [places_eq_cons t, places_eq_cons u] at hplaces
  exact (List.cons.inj hplaces).2

theorem setPlace (hsame : t.same u = true) (hplaces : t.innerPlaces = u.innerPlaces) (p : Placement) :
    (t.setPlace p).Coincides (u.setPlace p) := by
  refine ⟨?_, ?_⟩
  · rw [same_iff, content_setPlace, content_setPlace, same_iff.1 hsame]
  · rw [places_eq_cons, places_eq_cons, place_setPlace, place_setPlace, innerPlaces_setPlace, innerPlaces_setPlace, hplaces]

theorem moved (h : t.Coincides u) (p : Placement) : (t.setPlace p).Coincides (u.setPlace p) := setPlace h.same h.innerPlaces p

/-- Lists of trees coincide item by item. -/
theorem all_iff : ∀ {ts us : List Tree}, List.Forall₂ Coincides ts us ↔ sameAll ts us = true ∧ placesAll ts = placesAll us
  | [], [] => by simp [sameAll, placesAll]
  | [], _ :: _ | _ :: _, [] => by simp [sameAll]
  | t :: ts, u :: us => by
    rw [List.forall₂_cons, all_iff, sameAll, placesAll, placesAll, Bool.and_eq_true]
    constructor
    · rintro ⟨⟨hsame, hplaces⟩, hothers, hrest⟩
      exact ⟨⟨hsame, hothers⟩, by rw [hplaces, hrest]⟩
    · rintro ⟨⟨hsame, hothers⟩, hall⟩
      obtain ⟨hplaces, hrest⟩ := List.append_inj hall (length_places_of_same hsame)
      exact ⟨⟨hsame, hplaces⟩, hothers, hrest⟩

theorem list {ts us : List Tree} (h : List.Forall₂ Coincides ts us) (p : Placement) : (Tree.list p ts).Coincides (.list p us) := by
  obtain ⟨hsame, hplaces⟩ := all_iff.1 h
  exact ⟨hsame, by rw [Tree.places, Tree.places, hplaces]⟩

theorem items (h : t.Coincides u) : Option.Rel (List.Forall₂ Coincides) t.items? u.items? := by
  have hsame := h.same
  have hplaces := h.innerPlaces
  cases t <;> cases u <;> try cases hsame
  case list.list => exact .some (all_iff.2 ⟨hsame, hplaces⟩)
  all_goals exact .none

/-- So do nodes whose fields are named alike. -/
theorem fields (names : List String) {ts us : List Tree} (h : List.Forall₂ Coincides ts us) :
    sameFields (names.zip ts) (names.zip us) = true ∧ placesFields (names.zip ts) = placesFields (names.zip us) := by
  induction h generalizing names with
  | nil => simp [sameFields, placesFields]
  | @cons t u _ _ ht _ ih =>
    cases names with
    | nil => simp [sameFields, placesFields]
    | cons name names =>
      obtain ⟨hsame, hplaces⟩ := ih names
      simp only [List.zip_cons_cons, sameFields, placesFields, ht.same, ht.places, hsame, hplaces, beq_self_eq_true, Bool.and_self,
        and_self]

theorem node {ts us : List Tree} (h : List.Forall₂ Coincides ts us) (p : Placement) (lineage names : List String) :
    (Tree.node p lineage (names.zip ts)).Coincides (.node p lineage (names.zip us)) := by
  obtain ⟨hsame, hplaces⟩ := fields names h
  refine ⟨?_, by rw [Tree.places, Tree.places, hplaces]⟩
  rw [Tree.same, hsame, beq_self_eq_true, Bool.and_self]

/-- Rules make coinciding results of coinciding results. -/
theorem produce {g : Grammar} {rule : String} (h : t.Coincides u) : ExceptRel Eq Coincides (g.produce rule t) (g.produce rule u) := by
  have hextent : t.extent = u.extent := congrArg Placement.extent h.place
  unfold Grammar.produce
  split
  · next production _ =>
    unfold Production.node
    rw [hextent]
    split
    · next field _ => exact .ok (node (.cons h .nil) _ _ [field])
    · have hitems := h.items
      generalize t.items? = items at hitems
      generalize u.items? = items' at hitems
      cases hitems with
      | none =>
        simp only [Option.getD_none, Option.elim_none]
        split
        · exact .ok (refl _)
        · exact .error rfl
      | some hitems =>
        simp only [Option.getD_some, Option.elim_some, hitems.length_eq]
        split
        · exact .ok (node hitems _ _ _)
        · exact .error rfl
  · refine .ok ?_
    unfold widened
    rw [hextent]
    exact h.moved _

end Coincides

end Tree

/-! ## Expressions -/

namespace Expr

mutual

theorem display_content : ∀ e : Expr, e.content.display = e.display
  | .sequence parts | .merge parts | .choice parts => by simp only [content, display, displayAll_contentAll parts]
  | .repetition body _ _ | .ahead body | .notAhead body | .omission body => by
    simp only [content, display, display_content body]
  | .literal _ | .pattern _ | .rule _ | .external _ => by simp only [content]

theorem displayAll_contentAll : ∀ es : List Expr, displayAll (contentAll es) = displayAll es
  | [] => rfl
  | e :: rest => by simp only [contentAll, displayAll, display_content e, displayAll_contentAll rest]

end

mutual

/-- Where all stands that is in the fallbacks of an expression, from left to right. -/
def innerPlaces : Expr → List Placement
  | .sequence parts | .merge parts | .choice parts => innerPlacesAll parts
  | .repetition body _ fallback => body.innerPlaces ++ fallback.elim [] Tree.innerPlaces
  | .ahead body | .notAhead body | .omission body => body.innerPlaces
  | .literal _ | .pattern _ | .rule _ | .external _ => []

/-- Where all stands that is in the fallbacks of some expressions. -/
def innerPlacesAll : List Expr → List Placement
  | [] => []
  | e :: rest => e.innerPlaces ++ innerPlacesAll rest

end

mutual

theorem length_innerPlaces_content : ∀ e : Expr, e.content.innerPlaces.length = e.innerPlaces.length
  | .sequence parts | .merge parts | .choice parts => by simp only [content, innerPlaces, length_innerPlacesAll_content parts]
  | .repetition body _ fallback => by
    have hfallback : ((fallback.map Tree.content).elim [] Tree.innerPlaces).length = (fallback.elim [] Tree.innerPlaces).length := by
      cases fallback with
      | none => rfl
      | some t => simp only [Option.map_some, Option.elim_some, Tree.innerPlaces, List.length_tail, Tree.length_places_content]
    simp only [content, innerPlaces, List.length_append, length_innerPlaces_content body, hfallback]
  | .ahead body | .notAhead body | .omission body => by simp only [content, innerPlaces, length_innerPlaces_content body]
  | .literal _ | .pattern _ | .rule _ | .external _ => by simp only [content]

theorem length_innerPlacesAll_content : ∀ es : List Expr, (innerPlacesAll (contentAll es)).length = (innerPlacesAll es).length
  | [] => rfl
  | e :: rest => by
    simp only [contentAll, innerPlacesAll, List.length_append, length_innerPlaces_content e, length_innerPlacesAll_content rest]

end

/-- Equal expressions have what is in their fallbacks in as many places. -/
theorem length_innerPlaces_of_same {e d : Expr} (h : e.same d = true) : e.innerPlaces.length = d.innerPlaces.length := by
  rw [← length_innerPlaces_content e, same_iff.1 h, length_innerPlaces_content d]

/-- Equal expressions that have what is in their fallbacks in the same places. -/
structure Coincides (e d : Expr) : Prop where
  same : e.same d = true
  places : e.innerPlaces = d.innerPlaces

namespace Coincides

theorem refl (e : Expr) : e.Coincides e := ⟨same_self e, rfl⟩

theorem of_all : ∀ {es ds : List Expr}, sameAll es ds = true → innerPlacesAll es = innerPlacesAll ds → List.Forall₂ Coincides es ds
  | [], [], _, _ => .nil
  | [], _ :: _, h, _ | _ :: _, [], h, _ => by cases h
  | e :: es, d :: ds, hsame, hplaces => by
    rw [sameAll, Bool.and_eq_true] at hsame
    obtain ⟨hfirst, hothers⟩ := List.append_inj hplaces (length_innerPlaces_of_same hsame.1)
    exact .cons ⟨hsame.1, hfirst⟩ (of_all hsame.2 hothers)

end Coincides

end Expr

/-! ## Ways of skipping -/

namespace SkipMode

/-- Where all stands that is in the fallbacks of a skipper. -/
def innerPlaces : SkipMode → List Placement
  | .special skipper => skipper.innerPlaces
  | .standard | .off => []

/-- Equal ways of skipping, by coinciding skippers if they have any. -/
structure Coincides (m n : SkipMode) : Prop where
  same : m.same n = true
  places : m.innerPlaces = n.innerPlaces

end SkipMode

end Packrat

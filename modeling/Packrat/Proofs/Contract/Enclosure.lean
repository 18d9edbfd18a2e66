/-
Lists end no earlier than their items do, and none has just one item: what would be the only item stands
for the list, in its place. This holds of every list that parsing gives, also of those that grow under left
recursion, since a sequence accounts for all that it has collected.
-/
import Packrat.Proofs.Contract.Kept

namespace Packrat

/-! ## Two contracts at once -/

namespace Contract

variable {job : Job} {C D : Contract job}

/-- What both contracts promise. -/
def and (C D : Contract job) : Contract job where
  At p := C.At p ∧ D.At p
  Ends l := C.Ends l ∧ D.Ends l
  Fine e p v := C.Fine e p v ∧ D.Fine e p v
  Going first run := C.Going first run ∧ D.Going first run
  Grown run cursor t := C.Grown run cursor t ∧ D.Grown run cursor t
  Turning body bounds p rounds := C.Turning body bounds p rounds ∧ D.Turning body bounds p rounds

theorem Skips.and {mode : SkipMode} {p : Position} {stop : Location} (h : (C.and D).Skips mode p stop) :
    C.Skips mode p stop ∧ D.Skips mode p stop := by
  obtain ⟨skipper, v, hs, hv, hstop, hlt⟩ := h
  exact ⟨⟨skipper, v, hs, hv.1, hstop, hlt⟩, skipper, v, hs, hv.2, hstop, hlt⟩

theorem Plain.and (hC : C.Plain) (hD : D.Plain) : (C.and D).Plain where
  ends h := ⟨hC.ends h.1, hD.ends h.2⟩
  failed := and_congr hC.failed hD.failed
  same he he' hs h := ⟨hC.same he he' hs h.1, hD.same he he' hs h.2⟩
  moved hp hq hl h := ⟨hC.moved hp.1 hq.1 hl h.1, hD.moved hp.2 hq.2 hl h.2⟩
  literal hhas hp := ⟨hC.literal hhas hp.1, hD.literal hhas hp.2⟩
  pattern hhas hp := ⟨hC.pattern hhas hp.1, hD.pattern hhas hp.2⟩
  external hhas hp := ⟨hC.external hhas hp.1, hD.external hhas hp.2⟩
  wrapped hb h ht := ⟨hC.wrapped hb h.1 ht, hD.wrapped hb h.2 ht⟩
  passed hb hn h := ⟨hC.passed hb hn h.1, hD.passed hb hn h.2⟩
  chosen hhas hm h := ⟨hC.chosen hhas hm h.1, hD.chosen hhas hm h.2⟩
  ahead hhas := ⟨hC.ahead hhas, hD.ahead hhas⟩
  notAhead hhas := ⟨hC.notAhead hhas, hD.notAhead hhas⟩
  omission hhas hp h hw := ⟨hC.omission hhas hp.1 h.1 hw, hD.omission hhas hp.2 h.2 hw⟩

theorem Chains.and (hC : C.Chains) (hD : D.Chains) : (C.and D).Chains where
  new hp := ⟨hC.new hp.1, hD.new hp.2⟩
  cursor h := ⟨hC.cursor h.1, hD.cursor h.2⟩
  matched hhas hp h ht := ⟨hC.matched hhas hp h.1 ht.1, hD.matched hhas hp h.2 ht.2⟩
  omitted hhas hp h hs := ⟨hC.omitted hhas hp h.1 hs.1, hD.omitted hhas hp h.2 hs.2⟩
  silent hhas hp hg h hw := ⟨hC.silent hhas hp hg h.1 hw.1, hD.silent hhas hp hg h.2 hw.2⟩
  skipped h hs := ⟨hC.skipped h.1 hs.and.1, hD.skipped h.2 hs.and.2⟩
  concluded hhas hp h := ⟨hC.concluded hhas hp h.1, hD.concluded hhas hp h.2⟩
  aside hd h := ⟨hC.aside hd h.1, hD.aside hd h.2⟩
  planted hhas ha hm he hp ho hv ht :=
    ⟨hC.planted hhas ha hm he hp.1 ho.1 hv.1 ht, hD.planted hhas ha hm he hp.2 ho.2 hv.2 ht⟩
  complete hhas hp hg hd h := ⟨hC.complete hhas hp hg hd h.1, hD.complete hhas hp hg hd h.2⟩
  tail h := ⟨hC.tail h.1, hD.tail h.2⟩
  grow hhas h hcontinues hgoing hp hmore hlt :=
    ⟨hC.grow hhas h.1 hcontinues hgoing.1 hp hmore hlt, hD.grow hhas h.2 hcontinues hgoing.2 hp hmore hlt⟩
  grown hhas h := ⟨hC.grown hhas h.1, hD.grown hhas h.2⟩

theorem Turns.and (hC : C.Turns) (hD : D.Turns) : (C.and D).Turns where
  new hp := ⟨hC.new hp.1, hD.new hp.2⟩
  cursor h := ⟨hC.cursor h.1, hD.cursor h.2⟩
  matched h hg ht := ⟨hC.matched h.1 hg ht.1, hD.matched h.2 hg ht.2⟩
  omitted h hg hs := ⟨hC.omitted h.1 hg hs.1, hD.omitted h.2 hg hs.2⟩
  skipped h hs := ⟨hC.skipped h.1 hs.and.1, hD.skipped h.2 hs.and.2⟩
  signalled hhas h hg hw hv := ⟨hC.signalled hhas h.1 hg hw hv.1, hD.signalled hhas h.2 hg hw hv.2⟩
  concluded hhas hp h := ⟨hC.concluded hhas hp.1 h.1, hD.concluded hhas hp.2 h.2⟩

theorem Lawful.and (hC : C.Lawful) (hD : D.Lawful) : (C.and D).Lawful :=
  ⟨hC.plain.and hD.plain, hC.chains.and hD.chains, hC.turns.and hD.turns⟩

end Contract

/-! ## Lists and their items -/

namespace Tree

/-- If the tree is a list, it ends no earlier than its items, and there is not just one of them. -/
def Encloses (t : Tree) : Prop :=
  ∀ items, t.items? = some items → items.length ≠ 1 ∧ ∀ item ∈ items, item.extent.stop ≤ t.extent.stop

/-- All lists in the tree. -/
abbrev Enclosing (t : Tree) : Prop := t.Everywhere Encloses

variable {t t' : Tree}

theorem encloses_of_items?_eq_none (h : t.items? = none) : t.Encloses := by
  intro items hi
  rw [h] at hi
  cases hi

theorem items?_setPlace (t : Tree) (place : Placement) : (t.setPlace place).items? = t.items? := by
  cases t <;> rfl

theorem Encloses.setPlace {place : Placement} (h : t.Encloses) (hle : t.extent.stop ≤ place.extent.stop) :
    (t.setPlace place).Encloses := by
  intro items hi
  rw [items?_setPlace] at hi
  obtain ⟨hlength, hitems⟩ := h items hi
  refine ⟨hlength, fun item hm => Location.le_trans (hitems item hm) ?_⟩
  unfold extent at hle ⊢
  rwa [place_setPlace]

theorem Enclosing.setPlace {place : Placement} (h : t.Enclosing) (hle : t.extent.stop ≤ place.extent.stop) :
    (t.setPlace place).Enclosing :=
  h.of_children (h.here.setPlace hle) fun _ hc => .inr (by rwa [children_setPlace] at hc)

theorem Enclosing.inside {outer : Span} (h : t.Enclosing) (hle : t.extent.stop ≤ outer.stop) :
    (t.inside outer).Enclosing := by
  refine h.setPlace ?_
  have hextent := extent_inside t outer
  unfold extent Tree.inside at hextent
  rw [place_setPlace] at hextent
  rwa [hextent]

theorem enclosing_list {span : Span} {items : List Tree} (hlength : items.length ≠ 1)
    (hitems : ∀ item ∈ items, item.Enclosing ∧ item.extent.stop ≤ span.stop) : (list (.own span) items).Enclosing := by
  refine .intro ?_ fun item hm => (hitems item hm).1
  rintro _ ⟨⟩
  exact ⟨hlength, fun item hm => (hitems item hm).2⟩

/-- The empty list, wherever it stands. -/
theorem exists_of_isNil (h : t.isNil = true) : ∃ place, t = .list place [] := by
  cases t with
  | list place items => exact ⟨place, by rw [List.isEmpty_iff.1 h]⟩
  | text | found | node => cases h

theorem enclosing_of_items?_eq_none (h : t.items? = none) (hc : ∀ child ∈ t.children, child.Enclosing) : t.Enclosing :=
  .intro (encloses_of_items?_eq_none h) hc

/-- A production makes a node. -/
theorem items?_node {p : Production} {name : String} (h : p.node name t = .ok t') : t'.items? = none := by
  unfold Production.node at h
  split at h
  · cases h
    rfl
  · simp only at h
    split at h
    · cases h
      rfl
    · cases h

theorem Enclosing.produce {g : Grammar} {name : String} (h : t.Enclosing) (ht : g.produce name t = .ok t') :
    t'.Enclosing := by
  unfold Grammar.produce at ht
  split at ht
  · obtain ⟨-, hchildren, -⟩ := Production.node_eq_ok ht
    refine enclosing_of_items?_eq_none (items?_node ht) fun child hc => ?_
    rcases hchildren with hchildren | hchildren
    · rw [hchildren] at hc
      exact List.mem_singleton.1 hc ▸ h
    · exact h.child (hchildren.subset hc)
  · cases ht
    exact h.setPlace (Location.le_refl _)

end Tree

/-! ## What is collected -/

/-- What is collected encloses its items, and the collected stretch ends no earlier than any of it. -/
structure Accumulator.Enclosing (acc : Accumulator) : Prop where
  none : acc.begun = false → acc.results = #[]
  stop_le : acc.stop.location ≤ acc.cursor.location
  results : ∀ t ∈ acc.results, t.Enclosing ∧ t.extent.stop ≤ acc.stop.location

namespace Accumulator.Enclosing

variable {input : List Char} {acc : Accumulator} {t : Tree}

theorem new {p : Position} : (Accumulator.new p).Enclosing := ⟨fun _ => rfl, Location.le_refl _, by simp [Accumulator.new]⟩

theorem pass (h : acc.Enclosing) (l : Location) : (acc.pass input l).Enclosing where
  none := nofun
  stop_le := Accumulator.stop_le_pass h.stop_le l
  results t ht := ⟨(h.results t ht).1, Location.le_trans (h.results t ht).2 (Ordered.stop_le_pass acc l)⟩

theorem add (h : acc.Enclosing) (ht : t.Enclosing) : (acc.add input t).Enclosing := by
  have hpass : (acc.pass input t.extent.stop).Enclosing := h.pass _
  have hstop : (acc.pass input t.extent.stop).cursor.location ≤ _ := cursor_le_stop_pass acc
  refine ⟨nofun, hpass.stop_le, fun u hu => ?_⟩
  rcases Array.mem_push.1 hu with hu | rfl
  · exact hpass.results u hu
  · refine ⟨ht, Location.le_trans ?_ hstop⟩
    rw [cursor_pass, Position.location_moveTo]
    exact (Location.le_further _ _).2

theorem skip (h : acc.Enclosing) (l : Location) : (acc.skip input l).Enclosing := by
  unfold Accumulator.skip
  simp only
  split
  · next hb => exact ⟨fun hn => by simp [hb] at hn, Location.le_trans h.stop_le (Position.le_moveTo _ _), h.results⟩
  · next hb =>
    have hnone := h.none (by simpa using hb)
    exact ⟨fun _ => hnone, Location.le_refl _, by rw [hnone]; simp⟩

theorem collect {run : Run} (h : run.collected.Enclosing) (ht : t.Enclosing) : (run.collect input t).Enclosing := by
  refine Run.collect_induction h (fun acc u hu hacc => hacc.add ?_) fun acc hacc => hacc.pass t.extent.stop
  rcases hu with rfl | ⟨place, items, rfl, hm⟩
  · exact ht
  · exact ht.child hm

theorem tree (h : acc.Enclosing) : (acc.tree input).Enclosing := by
  unfold Accumulator.tree
  split
  · next t ht =>
    obtain ⟨hfine, hle⟩ := h.results t (by rw [← Array.mem_toList_iff, ht]; exact List.mem_singleton_self t)
    exact hfine.inside hle
  · next hne =>
    refine Tree.enclosing_list (fun hlength => ?_) fun item hm => h.results item (Array.mem_toList_iff.1 hm)
    obtain ⟨t, ht⟩ := List.length_eq_one_iff.1 hlength
    exact hne t ht

end Accumulator.Enclosing

/-! ## The contract -/

/-- The lists in a verdict end no earlier than their items. -/
def Verdict.Enclosing : Verdict → Prop
  | .matched t => t.Enclosing
  | .omitted _ | .silent _ | .failed _ => True

/-- Lists end no earlier than their items, and have not just one. -/
def Job.enclosure (job : Job) : Contract job where
  At _ := True
  Ends _ := True
  Fine _ _ v := v.Enclosing
  Going _ run := run.collected.Enclosing
  Grown _ cursor t := t.Enclosing ∧ t.extent.stop ≤ cursor.location
  Turning _ _ _ rounds := rounds.collected.Enclosing

section

variable {job : Job}

/-- What a run comes to encloses its items. -/
theorem Run.conclude_enclosing {run : Run} (h : run.collected.Enclosing) : (run.conclude job).Enclosing := by
  rcases run.conclude_cases job with hc | ⟨why, -, -, hc⟩
  · rw [hc]
    exact h.tree
  · rw [hc]
    trivial

theorem Job.enclosure_plain (hg : job.grammar.Textual) : job.enclosure.Plain where
  ends _ := trivial
  failed := Iff.rfl
  same _ _ _ h := h
  moved _ _ _ h := h
  literal _ _ := by
    unfold literalVerdict
    split
    · exact Tree.enclosing_of_items?_eq_none rfl nofun
    · trivial
  pattern _ _ := by
    unfold patternVerdict
    split
    · exact Tree.enclosing_of_items?_eq_none rfl nofun
    · trivial
  external hhas _ := absurd hhas (hg.internal _)
  wrapped _ hv ht := hv.produce ht
  passed _ _ hv := hv
  chosen _ _ hv := hv
  ahead _ := trivial
  notAhead _ := trivial
  omission {body setting v w} _ _ hv hw := by
    rcases v with t | (_ | _ | _) | span | failure <;> cases hw <;> trivial

theorem Job.enclosure_chains : job.enclosure.Chains where
  new _ := .new
  cursor _ := trivial
  matched _ _ h ht := h.collect ht
  omitted _ _ h _ := h.pass _
  silent _ _ _ h _ := h
  skipped h _ := h.skip _
  concluded _ _ h := Run.conclude_enclosing h
  aside _ h := h
  planted _ _ _ _ _ _ hv ht := by
    rcases ht with rfl | ⟨name, ht⟩
    · exact hv
    · exact hv.produce ht
  complete _ _ _ _ h := ⟨h.tree, by rw [Accumulator.extent_tree]; exact h.stop_le⟩
  tail _ := .new
  grow {run further cursor t more} _ h _ hgoing _ hmore hlt := by
    have hmore : (Verdict.matched more).Enclosing := hmore ▸ Run.conclude_enclosing hgoing
    have hcursor : (cursor.moveTo job.input more.extent.stop).location = more.extent.stop :=
      Position.location_moveTo_of_le (Location.le_of_lt hlt)
    have hstop : t.extent.stop ≤ (cursor.moveTo job.input more.extent.stop).location :=
      Location.le_trans h.2 (Position.le_moveTo _ _)
    refine ⟨Tree.enclosing_list (by simp) fun item hm => ?_, Location.le_refl _⟩
    rcases List.mem_cons.1 hm with rfl | hm
    · exact ⟨h.1, hstop⟩
    · obtain rfl := List.mem_singleton.1 hm
      refine ⟨hmore, ?_⟩
      show item.extent.stop ≤ (cursor.moveTo job.input item.extent.stop).location
      rw [hcursor]
      exact Location.le_refl _
  grown _ h := h.1

theorem Job.enclosure_turns (hg : job.grammar.Textual) : job.enclosure.Turns where
  new _ := .new
  cursor _ := trivial
  matched h _ ht := h.add ht
  omitted h _ _ := h.pass _
  skipped h _ := h.skip _
  signalled _ _ _ _ _ := trivial
  concluded {body bounds fallback p rounds} hhas _ h := by
    unfold Rounds.conclude
    split
    · split
      · next t =>
        obtain ⟨place, rfl⟩ := Tree.exists_of_isNil (hg.fallbacks _ _ _ hhas)
        exact Tree.enclosing_list Nat.zero_ne_one nofun
      · trivial
    · split
      · trivial
      · split
        · trivial
        · exact h.tree

/-- A parse that takes its results from the text keeps to the contract. -/
theorem Job.enclosure_lawful (hg : job.grammar.Textual) : job.enclosure.Lawful :=
  ⟨job.enclosure_plain hg, job.enclosure_chains, job.enclosure_turns hg⟩

end

end Packrat

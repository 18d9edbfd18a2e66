/-
Result trees follow the text: items and fields stand one behind the other, within the tree that they
are in. What a sequence collects comes in order because every part is tried where the part before it
has led; only a seed could stand before the place where the sequence that takes it was set aside. It
does not where nothing strays that a later alternative could be a seed for.
-/
import Packrat.Parse.Matcher
import Packrat.Proofs.Contract.Kept

namespace Packrat

/-! ## Trees in order -/

namespace Tree

/-- Items and fields stand one behind the other and within the tree. -/
structure Nested (t : Tree) : Prop where
  ordered : t.children.Pairwise fun a b => a.extent.stop ≤ b.extent.start
  within : ∀ child ∈ t.children, t.extent.start ≤ child.extent.start ∧ child.extent.stop ≤ t.extent.stop

/-- The tree is nested, and it does not end before it starts. -/
structure Lined (t : Tree) : Prop extends t.Nested where
  forward : t.extent.start ≤ t.extent.stop

/-- Everything in the tree is in order. -/
abbrev InOrder (t : Tree) : Prop := t.Everywhere Lined

variable {t t' : Tree}

theorem Lined.of_children_eq_nil (hc : t.children = []) (hle : t.extent.start ≤ t.extent.stop) : t.Lined where
  ordered := by rw [hc]; exact .nil
  within := by rw [hc]; nofun
  forward := hle

theorem inOrder_of_children_eq_nil (hc : t.children = []) (hle : t.extent.start ≤ t.extent.stop) : t.InOrder :=
  .intro (.of_children_eq_nil hc hle) (by rw [hc]; nofun)

/-- A tree may be taken out of a longer stretch. -/
theorem InOrder.inside (h : t.InOrder) {outer : Span} (hstart : outer.start ≤ t.extent.start)
    (hstop : t.extent.stop ≤ outer.stop) : (t.inside outer).InOrder := by
  refine h.of_children ?_ fun _ hc => .inr (by rwa [children_inside] at hc)
  refine ⟨⟨by rw [children_inside]; exact h.here.ordered, fun child hc => ?_⟩, ?_⟩
  · rw [children_inside] at hc
    obtain ⟨h1, h2⟩ := h.here.within child hc
    rw [extent_inside]
    exact ⟨Location.le_trans hstart h1, Location.le_trans h2 hstop⟩
  · rw [extent_inside]
    exact Location.le_trans hstart (Location.le_trans h.here.forward hstop)

theorem extent_produce {g : Grammar} {name : String} (ht : g.produce name t = .ok t') : t'.extent = t.extent := by
  unfold Tree.extent
  rw [Grammar.place_produce ht]
  rfl

theorem InOrder.produce {g : Grammar} {name : String} (h : t.InOrder) (ht : g.produce name t = .ok t') :
    t'.InOrder := by
  have hextent := extent_produce ht
  have hlined (hchildren : t'.children.Sublist t.children) : t'.Lined := by
    refine ⟨⟨h.here.ordered.sublist hchildren, fun child hc => ?_⟩, ?_⟩
    · rw [hextent]
      exact h.here.within child (hchildren.subset hc)
    · rw [hextent]
      exact h.here.forward
  rcases Grammar.produce_eq_ok ht with rfl | ⟨-, hchildren | hchildren, -⟩
  · rw [← children_widened t] at hlined
    exact h.of_children (hlined (.refl _)) fun _ hc => .inr (by rwa [children_widened] at hc)
  · refine h.of_children ⟨⟨by rw [hchildren]; exact List.pairwise_singleton _ _, fun child hc => ?_⟩, ?_⟩ fun child hc => ?_
    · rw [hchildren] at hc
      rw [List.mem_singleton.1 hc, hextent]
      exact ⟨Location.le_refl _, Location.le_refl _⟩
    · rw [hextent]
      exact h.here.forward
    · rw [hchildren] at hc
      exact .inl (List.mem_singleton.1 hc)
  · exact h.of_children (hlined hchildren) fun _ hc => .inr (hchildren.subset hc)

end Tree

/-! ## What is collected -/

/-- What is collected from a location on comes in order, within the collected stretch. -/
structure Accumulator.InOrder (l : Location) (acc : Accumulator) : Prop extends acc.Ordered where
  from_start : l ≤ acc.start.location
  none : acc.begun = false → acc.results = #[]
  results : ∀ t ∈ acc.results, t.InOrder ∧ acc.start.location ≤ t.extent.start ∧ t.extent.stop ≤ acc.stop.location
  ordered : acc.results.toList.Pairwise fun a b => a.extent.stop ≤ b.extent.start

namespace Accumulator.InOrder

variable {input : List Char} {acc : Accumulator} {t : Tree} {l : Location}

theorem new {p : Position} : (Accumulator.new p).InOrder p.location :=
  { Ordered.new p with
    from_start := Location.le_refl _, none := fun _ => rfl, results := by simp [Accumulator.new]
    ordered := by simp [Accumulator.new] }

theorem le_cursor (h : acc.InOrder l) : l ≤ acc.cursor.location := Location.le_trans h.from_start h.start_le_cursor

theorem pass (h : acc.InOrder l) (stop : Location) : (acc.pass input stop).InOrder l :=
  { h.toOrdered.pass stop with
    from_start := h.from_start, none := nofun, ordered := h.ordered
    results := fun t ht => by
      obtain ⟨h1, h2, h3⟩ := h.results t ht
      exact ⟨h1, h2, Location.le_trans h3 (Ordered.stop_le_pass acc stop)⟩ }

/-- The cursor moves to where a result ends that does not start before it. -/
theorem location_cursor_add (hle : acc.cursor.location ≤ t.extent.start) (ht : t.extent.start ≤ t.extent.stop) :
    (acc.add input t).cursor.location = t.extent.stop := by
  rw [cursor_add, Position.location_moveTo_of_le (Location.le_trans hle ht)]

theorem add (h : acc.InOrder l) (ht : t.InOrder) (hle : acc.cursor.location ≤ t.extent.start) :
    (acc.add input t).InOrder l := by
  have hforward := ht.here.forward
  have hcursor : (acc.add input t).cursor.location = t.extent.stop := location_cursor_add hle hforward
  have hstop : t.extent.stop ≤ (acc.add input t).stop.location := by
    rw [← hcursor]
    exact acc.cursor_le_stop_pass
  have hgrows : acc.stop.location ≤ (acc.add input t).stop.location := Ordered.stop_le_pass acc t.extent.stop
  have hstart : (acc.begun = true ∧ (acc.add input t).start = acc.start) ∨
      (acc.begun = false ∧ (acc.add input t).start.location = t.extent.start) := by
    cases hb : acc.begun with
    | true => exact .inl ⟨rfl, by simp [Accumulator.add, Accumulator.pass, hb]⟩
    | false =>
      refine .inr ⟨rfl, ?_⟩
      have : (acc.add input t).start = acc.cursor.moveTo input t.extent.start := by
        simp [Accumulator.add, Accumulator.pass, hb]
      rw [this, Position.location_moveTo_of_le hle]
  refine { h.toOrdered.add hforward with from_start := ?_, none := nofun, results := fun u hu => ?_, ordered := ?_ }
  · rcases hstart with ⟨-, hs⟩ | ⟨-, hs⟩
    · rw [hs]
      exact h.from_start
    · rw [hs]
      exact Location.le_trans h.le_cursor hle
  · rcases Array.mem_push.1 hu with hu | rfl
    · obtain ⟨h1, h2, h3⟩ := h.results u hu
      rcases hstart with ⟨-, hs⟩ | ⟨hb, -⟩
      · rw [hs]
        exact ⟨h1, h2, Location.le_trans h3 hgrows⟩
      · have hu : u ∈ acc.results := hu
        rw [h.none hb] at hu
        simp at hu
    · refine ⟨ht, ?_, hstop⟩
      rcases hstart with ⟨-, hs⟩ | ⟨-, hs⟩
      · rw [hs]
        exact Location.le_trans h.start_le_cursor hle
      · rw [hs]
        exact Location.le_refl _
  · rw [results_add, Array.toList_push, List.pairwise_append]
    refine ⟨h.ordered, List.pairwise_singleton _ _, fun a ha b hb => ?_⟩
    rw [List.mem_singleton.1 hb]
    obtain ⟨-, -, h3⟩ := h.results a (Array.mem_toList_iff.1 ha)
    exact Location.le_trans h3 (Location.le_trans h.stop_le hle)

theorem skip (h : acc.InOrder l) (stop : Location) : (acc.skip input stop).InOrder l := by
  have hle := @Position.le_moveTo input acc.cursor stop
  have hordered : (acc.skip input stop).Ordered := h.toOrdered.skip stop
  unfold Accumulator.skip at hordered ⊢
  cases hb : acc.begun with
  | true =>
    simp only [hb, if_true] at hordered ⊢
    exact { hordered with from_start := h.from_start, none := nofun, results := h.results, ordered := h.ordered }
  | false =>
    simp only [hb, Bool.false_eq_true, if_false] at hordered ⊢
    have hnone := h.none hb
    exact { hordered with
      from_start := Location.le_trans h.le_cursor hle, none := fun _ => hnone
      results := by rw [hnone]; simp
      ordered := by rw [hnone]; exact .nil }

/-- Items that are in order among themselves can be taken one by one. -/
theorem foldl_add : ∀ {items : List Tree} {acc : Accumulator}, acc.InOrder l →
    items.Pairwise (fun a b => a.extent.stop ≤ b.extent.start) →
    (∀ item ∈ items, item.InOrder ∧ acc.cursor.location ≤ item.extent.start) → (items.foldl (Accumulator.add input) acc).InOrder l
  | [], _, h, _, _ => h
  | item :: items, acc, h, hp, hi => by
    obtain ⟨hitem, hle⟩ := hi item List.mem_cons_self
    rw [List.pairwise_cons] at hp
    rw [List.foldl_cons]
    refine foldl_add (h.add hitem hle) hp.2 fun next hn => ⟨(hi next (List.mem_cons_of_mem _ hn)).1, ?_⟩
    rw [location_cursor_add hle hitem.here.forward]
    exact hp.1 next hn

theorem collect {run : Run} (h : run.collected.InOrder l) (ht : t.InOrder)
    (hle : run.collected.cursor.location ≤ t.extent.start) : (run.collect input t).InOrder l := by
  unfold Run.collect
  split
  · next place items _ =>
    refine (h.foldl_add ht.here.ordered fun item hi => ⟨ht.child hi, ?_⟩).pass _
    exact Location.le_trans hle (ht.here.within item hi).1
  · exact h.add ht hle

/-- A location that everything was collected behind is before the tree. -/
theorem tree (h : acc.InOrder l) : l ≤ (acc.tree input).extent.start ∧ (acc.tree input).InOrder := by
  refine ⟨?_, ?_⟩
  · rw [extent_tree]
    exact h.from_start
  · unfold Accumulator.tree
    split
    · next t ht =>
      obtain ⟨h1, h2, h3⟩ := h.results t (by rw [← Array.mem_toList_iff, ht]; exact List.mem_singleton_self t)
      exact h1.inside h2 h3
    · refine .intro ⟨⟨h.ordered, fun item hm => (h.results item (Array.mem_toList_iff.1 hm)).2⟩, h.start_le⟩ ?_
      exact fun item hm => (h.results item (Array.mem_toList_iff.1 hm)).1

end Accumulator.InOrder

/-! ## The contract -/

/-- No sequence that strays from its alternative of a choice can get a later one for a seed. -/
def Grammar.Prompt (g : Grammar) : Prop :=
  ∀ alternatives, g.Has (.choice alternatives) → ∀ e ∈ alternatives.dropLast, ∀ m, ¬ Strays g m e

/-- A result is in order and starts no earlier than where it was looked for. -/
def Verdict.InOrder (l : Location) : Verdict → Prop
  | .matched t => l ≤ t.extent.start ∧ t.InOrder
  | .omitted span => span.start ≤ span.stop
  | .silent _ | .failed _ => True

/-- Results are in order, and nothing in them comes before where they were looked for. -/
def Job.order (job : Job) : Contract job where
  At _ := True
  Ends _ := True
  Fine _ p v := v.InOrder p.location
  Going _ run := run.collected.InOrder run.setting.location
  Grown run cursor t := run.setting.location ≤ run.collected.start.location ∧
    run.collected.start.location ≤ t.extent.start ∧ t.extent.stop ≤ cursor.location ∧ t.InOrder
  Turning _ _ p rounds := rounds.collected.InOrder p.location

section

variable {job : Job}

theorem text_inOrder {t : Tree} {l : Location} {text : List Char} (hc : t.children = [])
    (hspan : t.extent = ⟨l, l.after text, text⟩) : (Verdict.matched t).InOrder l := by
  have hle : l ≤ l.after text := Scan.le_run (.start l) text
  refine ⟨?_, Tree.inOrder_of_children_eq_nil hc ?_⟩
  · rw [hspan]
    exact Location.le_refl l
  · rw [hspan]
    exact hle

theorem omission_inOrder {setting : Setting} {v w : Verdict} {l : Location} (hv : v.InOrder l)
    (hw : omissionAttempt job setting (.settled v) = .settled w) : w.InOrder l := by
  cases v with
  | matched t =>
    cases hw
    exact Position.le_moveTo _ _
  | silent why =>
    cases why with
    | tookNothing =>
      cases hw
      exact Location.le_refl _
    | ahead | notAhead =>
      cases hw
      trivial
  | omitted span | failed failure =>
    cases hw
    exact hv

theorem Job.order_plain (hg : job.grammar.Textual) : job.order.Plain where
  ends _ := trivial
  failed := Iff.rfl
  same _ _ _ h := h
  moved {e p q v} _ _ hl h := by
    show v.InOrder q.location
    rw [← hl]
    exact h
  literal {text p} _ _ := by
    unfold literalVerdict
    split
    · next stop h =>
      obtain ⟨-, rfl⟩ := (readLiteral_eq_ok _ _ _ _ _).1 h
      exact text_inOrder rfl rfl
    · trivial
  pattern {pattern p} _ _ := by
    unfold patternVerdict
    split
    · exact text_inOrder rfl rfl
    · trivial
  external hhas _ := absurd hhas (hg.internal _)
  wrapped _ hv ht := ⟨by rw [Tree.extent_produce ht]; exact hv.1, hv.2.produce ht⟩
  passed _ _ hv := hv
  chosen _ _ hv := hv
  ahead _ := trivial
  notAhead _ := trivial
  omission _ _ hv hw := omission_inOrder hv hw

/-- What a run comes to is in order. -/
theorem Run.conclude_inOrder {run : Run} {l : Location} (h : run.collected.InOrder l) : (run.conclude job).InOrder l := by
  rcases run.conclude_cases job with hc | ⟨why, -, -, hc⟩
  · rw [hc]
    exact h.tree
  · rw [hc]
    trivial

theorem Job.order_chains (hg : job.grammar.Prompt) : job.order.Chains where
  new _ := .new
  cursor _ := trivial
  matched _ _ h ht := h.collect ht.2 ht.1
  omitted _ _ h _ := h.pass _
  silent _ _ _ h _ := h
  skipped h _ := h.skip _
  concluded _ _ h := Run.conclude_inOrder h
  aside _ h := h
  planted {alternatives before later e e' m p o r t t'} hhas halt hmem hescapes _ _ hv ht := by
    -- the sequence was set aside where the choice is
    have hplace : o.location = p.location := by
      refine Decidable.byContradiction fun hne => ?_
      refine hg alternatives hhas e ?_ _ (hescapes.2.2 hne)
      rw [halt, List.dropLast_append_of_ne_nil (List.cons_ne_nil _ _), List.dropLast_cons_of_ne_nil (List.ne_nil_of_mem hmem)]
      simp
    have hfine : (Verdict.matched t).InOrder o.location := hplace ▸ hv
    rcases ht with rfl | ⟨name, ht⟩
    · exact hfine
    · exact ⟨by rw [Tree.extent_produce ht]; exact hfine.1, hfine.2.produce ht⟩
  complete {run} _ _ _ _ h := by
    have htree := @Accumulator.InOrder.tree job.input _ _ h
    refine ⟨h.from_start, ?_, ?_, htree.2⟩
    · rw [Accumulator.extent_tree]
      exact Location.le_refl _
    · rw [Accumulator.extent_tree]
      exact h.stop_le
  tail _ := .new
  grow {run further cursor t more} _ h hcontinues hgoing _ hmore hlt := by
    obtain ⟨hfrom, hstart, hstop, ht⟩ := h
    have hmore : (Verdict.matched more).InOrder cursor.location := by
      rw [← hmore]
      have hlocation : further.setting.location = cursor.location := by
        rw [hcontinues.setting]
        rfl
      rw [← hlocation]
      exact Run.conclude_inOrder hgoing
    have hcursor : (cursor.moveTo job.input more.extent.stop).location = more.extent.stop :=
      Position.location_moveTo_of_le (Location.le_of_lt hlt)
    have hbefore : t.extent.stop ≤ more.extent.start := Location.le_trans hstop hmore.1
    have hafter : t.extent.stop ≤ more.extent.stop := Location.le_trans hbefore hmore.2.here.forward
    refine ⟨hfrom, Location.le_refl _, Location.le_refl _, .intro ⟨⟨?_, fun child hc => ?_⟩, ?_⟩ fun child hc => ?_⟩
    · exact List.pairwise_pair.2 hbefore
    · show run.collected.start.location ≤ child.extent.start ∧
        child.extent.stop ≤ (cursor.moveTo job.input more.extent.stop).location
      rw [hcursor]
      rcases List.mem_cons.1 hc with rfl | hc
      · exact ⟨hstart, hafter⟩
      · rw [List.mem_singleton.1 hc]
        exact ⟨Location.le_trans hstart (Location.le_trans ht.here.forward hbefore), Location.le_refl _⟩
    · show run.collected.start.location ≤ (cursor.moveTo job.input more.extent.stop).location
      rw [hcursor]
      exact Location.le_trans hstart (Location.le_trans ht.here.forward hafter)
    · rcases List.mem_cons.1 hc with rfl | hc
      · exact ht
      · exact List.mem_singleton.1 hc ▸ hmore.2
  grown _ h := ⟨Location.le_trans h.1 h.2.1, h.2.2.2⟩

theorem Job.order_turns (hg : job.grammar.Textual) : job.order.Turns where
  new _ := .new
  cursor _ := trivial
  matched h _ ht := h.add ht.2 ht.1
  omitted h _ _ := h.pass _
  skipped h _ := h.skip _
  signalled _ _ _ _ _ := trivial
  concluded {body bounds fallback p rounds} hhas _ h := by
    unfold Rounds.conclude
    split
    · split
      · next t =>
        have hchildren := Tree.children_eq_nil_of_isNil (hg.fallbacks _ _ _ hhas)
        rw [← Tree.children_movedTo t (.empty p.location)] at hchildren
        refine ⟨?_, Tree.inOrder_of_children_eq_nil hchildren ?_⟩
        · rw [Tree.extent_movedTo]
          exact Location.le_refl _
        · rw [Tree.extent_movedTo]
          exact Location.le_refl _
      · trivial
    · split
      · trivial
      · split
        · exact h.start_le
        · exact h.tree

end

/-- What a parse gives follows the text, throughout the tree. -/
theorem Grammar.parse_nests {g : Grammar} (hg : g.Textual) (hp : g.Prompt) {options : Options}
    {externals : Externals} {input : List Char} {t : Tree} (ht : (g.parse options externals input).result = .ok t) :
    t.Everywhere Tree.Nested := by
  let job := Job.new g (.rule g.start) options externals input
  have hlawful : job.order.Lawful := ⟨job.order_plain hg, job.order_chains hp, job.order_turns hg⟩
  obtain ⟨v, hv, hresult⟩ := hlawful.parse trivial ht
  have horder : t.InOrder := by
    cases v with
    | matched u =>
      cases hresult
      exact hv.2
    | silent why =>
      cases hresult
      exact Tree.inOrder_of_children_eq_nil rfl (Location.le_refl _)
    | omitted span =>
      cases hresult
      exact Tree.inOrder_of_children_eq_nil rfl hv
    | failed failure => cases hresult
  exact horder.imp fun _ h => h.toNested

namespace Grammar

/-- Differences of numbers, which group to the left. Numbers are nodes. -/
def ofDifferences : Grammar where
  start := "difference"
  rules := [
    ("difference", .choice [.sequence [.rule "difference", .omission (.literal ['-']), .rule "number"], .rule "number"]),
    ("number", .repetition (.literal ['1']) ⟨1, none⟩ none)]
  skipper := some (.literal [' '])
  overrides := []
  productions := [("number", .new ["number"] ["digits"])]
  kinds := .empty

theorem prompt_ofDifferences : ofDifferences.Prompt :=
  fun _ _ _ _ _ => not_strays_of_check (by decide +kernel)

theorem parse_nests_differences :
    ∃ t, (ofDifferences.parse .standard .nothing "11 - 1 -1".toList).result = .ok t ∧
      t.Everywhere Tree.Nested := by
  have hok : (ofDifferences.parse .standard .nothing "11 - 1 -1".toList).result.isOk = true := by
    decide +kernel
  cases h : (ofDifferences.parse .standard .nothing "11 - 1 -1".toList).result with
  | ok t => exact ⟨t, rfl, parse_nests (textual_of_check (by decide +kernel)) prompt_ofDifferences h⟩
  | error refusal =>
    rw [h] at hok
    cases hok

/-- The rule `a` has no base case of its own. Behind the first `x` it sets its sequence aside, and the
seed that the other alternative of `b` finds is that same `x`. -/
def straying : Grammar where
  start := "b"
  rules := [
    ("b", .choice [.sequence [.literal ['x'], .rule "a"], .literal ['x']]),
    ("a", .sequence [.rule "a", .literal ['t']])]
  skipper := none
  overrides := []
  productions := []
  kinds := .empty

/-- Where a sequence strays, its seed may stand before it. -/
theorem parse_strays : straying.Textual ∧
    ∃ t, (straying.parse .standard .nothing ['x', 't']).result = .ok t ∧
      ¬ t.Everywhere Tree.Nested := by
  refine ⟨textual_of_check (by decide +kernel), ?_⟩
  have hplaces : (straying.parse .standard .nothing ['x', 't']).result.toOption.map (fun t =>
      t.children.map fun u => (u.extent.start, u.children.map fun v => v.extent.start)) =
      some [(⟨0, 0⟩, []), (⟨0, 1⟩, [⟨0, 0⟩, ⟨0, 1⟩])] := by
    decide +kernel
  cases h : (straying.parse .standard .nothing ['x', 't']).result with
  | error refusal =>
    rw [h] at hplaces
    cases hplaces
  | ok t =>
    refine ⟨t, rfl, fun hnested => ?_⟩
    rw [h] at hplaces
    have hplaces : t.children.map (fun u => (u.extent.start, u.children.map fun v => v.extent.start)) =
        [(⟨0, 0⟩, []), (⟨0, 1⟩, [⟨0, 0⟩, ⟨0, 1⟩])] := Option.some.inj hplaces
    have hmem : ((⟨0, 1⟩, [⟨0, 0⟩, ⟨0, 1⟩]) : Location × List Location) ∈
        t.children.map fun u => (u.extent.start, u.children.map fun v => v.extent.start) := by
      rw [hplaces]
      simp
    obtain ⟨u, hu, he⟩ := List.mem_map.1 hmem
    obtain ⟨hstart, hchildren⟩ := Prod.mk.inj he
    have hmem : (⟨0, 0⟩ : Location) ∈ u.children.map fun v => v.extent.start := by
      rw [hchildren]
      simp
    obtain ⟨v, hv, hstart'⟩ := List.mem_map.1 hmem
    -- the seed is in the inner list but starts before it
    have hwithin := ((hnested.child hu).here.within v hv).1
    rw [hstart, hstart'] at hwithin
    exact absurd hwithin (by decide)

end Grammar

end Packrat

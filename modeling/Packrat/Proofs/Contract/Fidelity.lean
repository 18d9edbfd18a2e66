/-
Spans tell the truth. Every span in a result starts at a place of the text, holds the text that
follows there, and ends where reading that text ends. For this it is enough that whatever is
collected has its ends at positions of the text, in order, and that no place comes from elsewhere:
from matchers outside, from patterns that do not match beginnings, or with a fallback.
-/
import Packrat.Parse.Matcher
import Packrat.Proofs.Contract.Kept

namespace Packrat

/-! ## Spans of a text -/

/-- The span holds the text at its place: some text leads to its start, its own text comes next, and
reading that from its start leads to its end. -/
def Span.Reads (input : List Char) (s : Span) : Prop :=
  ∃ before rest, input = before ++ s.text ++ rest ∧ s.start = Location.origin.after before ∧
    s.stop = s.start.after s.text

/-- The span holds the text at a position that does not part a line break. -/
def Span.Of (input : List Char) (s : Span) : Prop :=
  ∃ (p : Position) (rest : List Char), p.Sits input ∧ p.rest input = s.text ++ rest ∧ s.start = p.location ∧
    s.stop = p.location.after s.text

namespace Span.Of

variable {input : List Char} {s : Span} {p q : Position}

theorem reads (h : s.Of input) : s.Reads input := by
  obtain ⟨p, rest, ⟨before, hinput, -, hlocation, -⟩, hrest, hstart, hstop⟩ := h
  refine ⟨before, rest, ?_, hstart.trans hlocation, by rw [hstop, hstart]⟩
  rw [List.append_assoc, ← hrest]
  exact hinput

theorem start (h : s.Of input) : Position.Place input s.start := by
  obtain ⟨p, _, hp, -, hstart, -⟩ := h
  exact ⟨p, hp, hstart.symm⟩

theorem stop (h : s.Of input) : Position.Place input s.stop := by
  obtain ⟨p, rest, hp, hrest, -, hstop⟩ := h
  rw [hstop]
  exact hp.place_after hrest

theorem start_le_stop (h : s.Of input) : s.start ≤ s.stop := by
  obtain ⟨p, _, -, -, hstart, hstop⟩ := h
  rw [hstart, hstop]
  exact Scan.le_run (.start p.location) s.text

theorem empty (hp : p.Sits input) : (Span.empty p.location).Of input := ⟨p, p.rest input, hp, rfl, rfl, rfl⟩

theorem ofPositions (hp : p.Sits input) (hq : q.Sits input) (hle : p.location ≤ q.location) :
    (Span.ofPositions input p q).Of input := by
  obtain ⟨hrest, hstop⟩ := hp.text_append hq ((hp.le_iff hq).1 hle)
  exact ⟨p, q.rest input, hp, hrest, rfl, hstop⟩

end Span.Of

/-- The tree's own span holds the text at its place, and so does its outer span if there is one. -/
def Tree.Stands (P : Span → Prop) (t : Tree) : Prop := P t.span ∧ ∀ outer, t.outer = some outer → P outer

namespace Tree

variable {P Q : Span → Prop} {t t' : Tree}

theorem Stands.extent (h : t.Stands P) : P t.extent := by
  unfold Tree.extent Placement.extent
  cases ho : t.place.outer with
  | none => exact h.1
  | some outer => exact h.2 outer ho

theorem stands_own {span : Span} (h : P span) (ht : t.place = .own span) : t.Stands P := by
  unfold Stands Tree.span Tree.outer
  rw [ht]
  exact ⟨h, nofun⟩

theorem Stands.imp (h : t.Stands P) (f : ∀ s, P s → Q s) : t.Stands Q := ⟨f _ h.1, fun o ho => f _ (h.2 o ho)⟩

theorem Stands.inside {outer : Span} (h : t.Stands P) (ho : P outer) : (t.inside outer).Stands P := by
  refine ⟨by rw [span_inside]; exact h.1, fun o hm => ?_⟩
  unfold Tree.outer Tree.inside at hm
  rw [place_setPlace] at hm
  simp only at hm
  split at hm
  · cases hm
  · cases hm
    exact ho

/-- All spans in a tree, own or outer. -/
abbrev Spans (P : Span → Prop) (t : Tree) : Prop := t.Everywhere (Stands P)

theorem Spans.inside {outer : Span} (h : t.Spans P) (ho : P outer) : (t.inside outer).Spans P :=
  h.of_children (h.here.inside ho) fun _ hc => .inr (by rwa [children_inside] at hc)

theorem Spans.extent (h : t.Spans P) : P t.extent := h.here.extent

theorem Spans.produce {g : Grammar} {name : String} (h : t.Spans P) (ht : g.produce name t = .ok t') : t'.Spans P := by
  refine h.of_children (stands_own h.extent (Grammar.place_produce ht)) fun child hc => ?_
  rcases Grammar.produce_eq_ok ht with rfl | ⟨-, hchildren | hchildren, -⟩
  · exact .inr (by rwa [children_widened] at hc)
  · rw [hchildren] at hc
    exact .inl (List.mem_singleton.1 hc)
  · exact .inr (hchildren.subset hc)

theorem spans_list {span : Span} {items : List Tree} (h : P span) (hi : ∀ item ∈ items, item.Spans P) :
    (list (.own span) items).Spans P := .intro (stands_own h rfl) hi

end Tree

/-! ## What is collected -/

/-- The ends of what is collected sit in the text, in order, and all spans in it hold the text. -/
structure Accumulator.Faithful (input : List Char) (acc : Accumulator) : Prop extends acc.Ordered where
  sits_start : acc.start.Sits input
  sits_stop : acc.stop.Sits input
  sits_cursor : acc.cursor.Sits input
  results : ∀ t ∈ acc.results, t.Spans (Span.Of input)

namespace Accumulator.Faithful

variable {input : List Char} {acc : Accumulator} {t : Tree} {l : Location}

theorem new {p : Position} (hp : p.Sits input) : (Accumulator.new p).Faithful input :=
  { Ordered.new p with sits_start := hp, sits_stop := hp, sits_cursor := hp, results := by simp [Accumulator.new] }

theorem pass (h : acc.Faithful input) (hl : Position.Place input l) : (acc.pass input l).Faithful input := by
  have hcursor : (acc.cursor.moveTo input l).Sits input := h.sits_cursor.moveTo_place hl
  refine { h.toOrdered.pass l with sits_start := h.sits_start, sits_stop := ?_, sits_cursor := hcursor, results := h.results }
  show Position.Sits input (if acc.stop.location < (acc.cursor.moveTo input l).location then _ else _)
  split
  · exact hcursor
  · exact h.sits_stop

theorem add (h : acc.Faithful input) (ht : t.Spans (Span.Of input)) : (acc.add input t).Faithful input := by
  have hpass := h.pass ht.extent.stop
  refine { h.toOrdered.add ht.extent.start_le_stop with
    sits_start := ?_, sits_stop := hpass.sits_stop, sits_cursor := hpass.sits_cursor, results := fun u hu => ?_ }
  · show Position.Sits input (if acc.begun then _ else _)
    split
    · exact h.sits_start
    · exact h.sits_cursor.moveTo_place ht.extent.start
  · rcases Array.mem_push.1 hu with hu | rfl
    · exact h.results u hu
    · exact ht

theorem skip (h : acc.Faithful input) (hl : Position.Place input l) : (acc.skip input l).Faithful input := by
  have hcursor : (acc.cursor.moveTo input l).Sits input := h.sits_cursor.moveTo_place hl
  refine { h.toOrdered.skip l with sits_start := ?_, sits_stop := ?_, sits_cursor := ?_, results := ?_ }
  · unfold Accumulator.skip
    simp only
    split
    · exact h.sits_start
    · exact hcursor
  · unfold Accumulator.skip
    simp only
    split
    · exact h.sits_stop
    · exact hcursor
  · rwa [cursor_skip]
  · rw [results_skip]
    exact h.results

theorem span (h : acc.Faithful input) : (acc.span input).Of input := .ofPositions h.sits_start h.sits_stop h.start_le

theorem tree (h : acc.Faithful input) : (acc.tree input).Spans (Span.Of input) := by
  unfold Accumulator.tree
  split
  · next t ht =>
    refine (h.results t ?_).inside h.span
    rw [← Array.mem_toList_iff, ht]
    exact List.mem_singleton_self t
  · exact Tree.spans_list h.span fun item hm => h.results item (Array.mem_toList_iff.1 hm)

theorem collect {run : Run} (h : run.collected.Faithful input) (ht : t.Spans (Span.Of input)) :
    (run.collect input t).Faithful input := by
  refine Run.collect_induction h (fun acc u hu hacc => hacc.add ?_) fun acc hacc => hacc.pass ht.extent.stop
  rcases hu with rfl | ⟨place, items, rfl, hm⟩
  · exact ht
  · exact ht.child hm

end Accumulator.Faithful

/-! ## The contract -/

/-- The spans in a verdict hold the text. -/
def Verdict.Faithful (input : List Char) : Verdict → Prop
  | .matched t => t.Spans (Span.Of input)
  | .omitted span => span.Of input
  | .silent _ => True
  | .failed failure => Position.Place input failure.stop

/-- Spans hold the text, and failures stop in it. -/
def Job.fidelity (job : Job) : Contract job where
  At := Position.Sits job.input
  Ends := Position.Place job.input
  Fine _ _ v := v.Faithful job.input
  Going _ run := run.collected.Faithful job.input
  Grown run cursor t := run.collected.start.Sits job.input ∧ cursor.Sits job.input ∧
    run.collected.start.location ≤ cursor.location ∧ t.Spans (Span.Of job.input)
  Turning _ _ _ rounds := rounds.collected.Faithful job.input

section

variable {job : Job} {p : Position}

/-- Reading part of a literal stops in the text. -/
theorem place_readLiteral (hp : p.Sits job.input) {literal : List Char} {failure : Failure} :
    ∀ (wanted : List Char) {rest : List Char} (read : List Char), p.rest job.input = read ++ rest →
      readLiteral literal wanted rest ((Scan.start p.location).run read) = .error failure →
      Position.Place job.input failure.stop
  | [], _, _, _, h => by simp [readLiteral] at h
  | c :: wanted, [], read, hr, h => by
    simp only [readLiteral, Except.error.injEq] at h
    rw [← h]
    exact hp.place_after hr
  | c :: wanted, d :: rest, read, hr, h => by
    unfold readLiteral at h
    split at h
    · have hread : readLiteral literal wanted rest ((Scan.start p.location).run (read ++ [d])) = .error failure := by
        rw [Scan.run_append]
        exact h
      exact place_readLiteral hp wanted (read ++ [d]) (by rw [hr, List.append_assoc]; rfl) hread
    · cases h
      exact hp.place_after hr

theorem literal_faithful (hp : p.Sits job.input) (text : List Char) :
    (literalVerdict text (p.rest job.input) p.location).Faithful job.input := by
  unfold literalVerdict
  split
  · next stop h =>
    obtain ⟨⟨more, hr⟩, hstop⟩ := (readLiteral_eq_ok _ _ _ _ _).1 h
    exact .intro (Tree.stands_own ⟨p, more, hp, hr.symm, rfl, hstop⟩ rfl) nofun
  · next failure h => exact place_readLiteral hp text [] rfl h

theorem pattern_faithful (hp : p.Sits job.input) {pattern : Pattern} (ha : pattern.Anchored job.grammar.engine) :
    (patternVerdict job.grammar.engine pattern (p.rest job.input) p.location).Faithful job.input := by
  unfold patternVerdict
  split
  · next groups h =>
    obtain ⟨more, hr⟩ := ha _ _ h
    exact .intro (Tree.stands_own ⟨p, more, hp, hr.symm, rfl, rfl⟩ rfl) nofun
  · exact hp.place

theorem omission_faithful {setting : Setting} {v w : Verdict} (hp : setting.position.Sits job.input)
    (hv : v.Faithful job.input) (hw : omissionAttempt job setting (.settled v) = .settled w) : w.Faithful job.input := by
  cases v with
  | matched t =>
    cases hw
    have hstop := Tree.Spans.extent hv
    exact .ofPositions hp (hp.moveTo_place hstop.stop) (Position.le_moveTo _ _)
  | silent why =>
    cases why with
    | tookNothing =>
      cases hw
      exact .empty hp
    | ahead | notAhead =>
      cases hw
      trivial
  | omitted span | failed failure =>
    cases hw
    exact hv

theorem Job.fidelity_plain (hg : job.grammar.Textual) (ha : ∀ p, job.grammar.Has (.pattern p) → p.Anchored job.grammar.engine) :
    job.fidelity.Plain where
  ends := Position.Sits.place
  failed := Iff.rfl
  same _ _ _ h := h
  moved _ _ _ h := h
  literal _ hp := literal_faithful hp _
  pattern hhas hp := pattern_faithful hp (ha _ hhas)
  external hhas _ := absurd hhas (hg.internal _)
  wrapped _ hv ht := Tree.Spans.produce hv ht
  passed _ _ hv := hv
  chosen _ _ hv := hv
  ahead _ := trivial
  notAhead _ := trivial
  omission _ hp hv hw := omission_faithful hp hv hw

/-- What a skipper takes ends in the text. -/
theorem Job.fidelity_skips {mode : SkipMode} {stop : Location} (h : job.fidelity.Skips mode p stop) :
    Position.Place job.input stop := by
  obtain ⟨_, v, -, hv, hstop, -⟩ := h
  cases v with
  | matched t =>
    cases hstop
    exact (Tree.Spans.extent hv).stop
  | omitted span =>
    cases hstop
    exact Span.Of.stop hv
  | silent | failed => cases hstop

theorem Job.fidelity_chains : job.fidelity.Chains where
  new hp := .new hp
  cursor h := h.sits_cursor
  matched _ _ h ht := h.collect ht
  omitted _ _ h hs := h.pass hs.stop
  silent _ _ _ h _ := h
  skipped h hs := h.skip (fidelity_skips hs)
  concluded {run} _ _ h := by
    rcases run.conclude_cases job with hc | ⟨why, -, -, hc⟩
    · rw [hc]
      exact Accumulator.Faithful.tree h
    · rw [hc]
      trivial
  aside _ h := h
  planted _ _ _ _ _ _ hv ht := by
    rcases ht with rfl | ⟨name, ht⟩
    · exact hv
    · exact Tree.Spans.produce hv ht
  complete _ _ _ _ h := ⟨h.sits_start, h.sits_cursor, h.start_le_cursor, h.tree⟩
  tail h := .new h.2.1
  grow {run further cursor t more} _ h _ hgoing _ hmore _ := by
    obtain ⟨hstart, hcursor, hle, ht⟩ := h
    have hmore : more.Spans (Span.Of job.input) := by
      rcases further.conclude_cases job with hc | ⟨why, -, -, hc⟩
      · cases hmore.symm.trans hc
        exact Accumulator.Faithful.tree hgoing
      · cases hmore.symm.trans hc
    have hcursor' := hcursor.moveTo_place hmore.extent.stop
    have hle' := Location.le_trans hle (@Position.le_moveTo job.input cursor more.extent.stop)
    refine ⟨hstart, hcursor', hle', Tree.spans_list (.ofPositions hstart hcursor' hle') ?_⟩
    intro item hm
    rcases List.mem_cons.1 hm with rfl | hm
    · exact ht
    · exact List.mem_singleton.1 hm ▸ hmore
  grown _ h := h.2.2.2

theorem Job.fidelity_turns (hg : job.grammar.Textual) : job.fidelity.Turns where
  new hp := .new hp
  cursor h := h.sits_cursor
  matched h _ ht := h.add ht
  omitted h _ hs := h.pass hs.stop
  skipped h hs := h.skip (fidelity_skips hs)
  signalled _ _ _ _ _ := trivial
  concluded {body bounds fallback p rounds} hhas hp h := by
    unfold Rounds.conclude
    split
    · split
      · next t =>
        have hchildren := Tree.children_eq_nil_of_isNil (hg.fallbacks _ _ _ hhas)
        refine .intro (Tree.stands_own (.empty hp) (by simp [Tree.movedTo])) ?_
        rw [Tree.children_movedTo, hchildren]
        exact List.forall_mem_nil _
      · trivial
    · split
      · exact h.sits_cursor.place
      · split
        · exact h.span
        · exact h.tree

/-- A parse that takes its results from the text keeps to the contract. -/
theorem Job.fidelity_lawful (hg : job.grammar.Textual) (ha : ∀ p, job.grammar.Has (.pattern p) → p.Anchored job.grammar.engine) :
    job.fidelity.Lawful := ⟨job.fidelity_plain hg ha, job.fidelity_chains, job.fidelity_turns hg⟩

end

/-- Every span in what a parse gives holds the text at its place. -/
theorem Grammar.parse_reads {g : Grammar} (hg : g.Textual) (ha : ∀ p, g.Has (.pattern p) → p.Anchored g.engine)
    {options : Options} {externals : Externals} {input : List Char} {t : Tree}
    (ht : (g.parse options externals input).result = .ok t) : t.Spans (Span.Reads input) := by
  let job := Job.new g (.rule g.start) options externals input
  have hlawful : job.fidelity.Lawful := ⟨job.fidelity_plain hg ha, job.fidelity_chains, job.fidelity_turns hg⟩
  obtain ⟨v, hv, hresult⟩ := hlawful.parse Position.sits_origin ht
  have hspans : t.Spans (Span.Of input) := by
    cases v with
    | matched u =>
      cases hresult
      exact hv
    | silent why =>
      cases hresult
      exact Tree.spans_list (.empty Position.sits_origin) nofun
    | omitted span =>
      cases hresult
      exact Tree.spans_list hv nofun
    | failed failure => cases hresult
  exact hspans.imp fun _ h => h.imp fun _ => Span.Of.reads

namespace Grammar

/-- Items between commas, to which lists grow one by one, on lines of their own or side by side. -/
def ofItems : Grammar where
  start := "items"
  rules := [
    ("items", .choice [.merge [.rule "items", .omission (.literal [',']), .rule "item"], .rule "item"]),
    ("item", .sequence [.literal ['x'], .repetition (.literal ['!']) ⟨0, none⟩ (some .nil)])]
  skipper := some (.choice [.literal [' '], .literal ['\r', '\n']])
  overrides := []
  productions := []
  kinds := .empty

theorem parse_reads_items :
    ∃ t, (ofItems.parse .standard .nothing "x!,\r\nx , x".toList).result = .ok t ∧
      t.Spans (Span.Reads "x!,\r\nx , x".toList) := by
  have hok : (ofItems.parse .standard .nothing "x!,\r\nx , x".toList).result.isOk = true := by
    decide +kernel
  cases h : (ofItems.parse .standard .nothing "x!,\r\nx , x".toList).result with
  | ok t =>
    have hanchored := anchored_of_check (g := ofItems) (by decide +kernel)
    exact ⟨t, rfl, parse_reads (textual_of_check (by decide +kernel)) hanchored h⟩
  | error refusal =>
    rw [h] at hok
    cases hok

end Grammar

end Packrat

/-
A merge is a sequence that takes lists apart. Tried in the same session, the two take the same input part by
part, and they differ only in what they make of the lists among their values. So they fail together, and where
both have a value the merge has collected the pieces of what the sequence has. For this it matters that the
items of a list end within it: taking them one by one leads to where the list as a whole does.
-/
import Packrat.Proofs.Contract.Enclosure
import Packrat.Proofs.Contract.Fidelity
import Packrat.Proofs.Contract.Progress

namespace Packrat

/-! ## Pieces -/

namespace Tree

/-- The items of a list; any other tree is a piece by itself. -/
def pieces (t : Tree) : List Tree := t.items?.getD [t]

/-- The tree begins where the first of its pieces does, or, if there is none, not behind a location. -/
def OpensEvenly (l : Location) (t : Tree) : Prop :=
  match t.pieces.head? with
  | some first => first.extent.start = t.extent.start
  | none => t.extent.start ≤ l

variable {t : Tree}

theorem isNil_iff : t.isNil = true ↔ t.items? = some [] := by cases t <;> simp [isNil, items?]

/-- A tree with one piece at most, which is then the list without items, is that list itself. -/
theorem Encloses.isNil_iff (h : t.Encloses) :
    t.isNil = true ↔ t.pieces.length ≤ 1 ∧ ∀ u ∈ t.pieces, u.isNil = true := by
  rw [Tree.isNil_iff]
  unfold pieces
  cases hi : t.items? with
  | none =>
    have hn : t.isNil ≠ true := fun hn => by simp [Tree.isNil_iff.1 hn] at hi
    simpa using hn
  | some items =>
    have hlength := (h items hi).1
    simp only [Option.some.injEq, Option.getD_some]
    constructor
    · rintro rfl
      simp
    · rintro ⟨hle, -⟩
      exact List.length_eq_zero_iff.1 (by omega)

end Tree

/-! ## Collecting piece by piece -/

namespace Accumulator

variable {input : List Char} {acc acc' : Accumulator} {t : Tree} {l l' : Location}

theorem location_stop_pass : (acc.pass input l).stop.location =
    Location.further acc.stop.location (acc.cursor.moveTo input l).location := by
  show Position.location (if _ then _ else _) = _
  unfold Location.further
  split
  · next h => rw [if_pos (Location.le_of_lt h)]
  · next h =>
    split
    · next hle => exact Location.le_antisymm hle (Location.not_lt.1 h)
    · rfl

theorem sits_stop_pass (hcursor : acc.cursor.Sits input) (hstop : acc.stop.Sits input) (hl : Position.Place input l) :
    (acc.pass input l).stop.Sits input := by
  show Position.Sits input (if _ then _ else _)
  split
  · exact hcursor.moveTo_place hl
  · exact hstop

/-- Taking input in two goes is the same as in one. -/
theorem pass_pass (hcursor : acc.cursor.Sits input) (hstop : acc.stop.Sits input) (hl : Position.Place input l)
    (hl' : Position.Place input l') (hle : l ≤ l') : (acc.pass input l).pass input l' = acc.pass input l' := by
  have hcursor' := hcursor.moveTo_place hl
  have hcursors : ((acc.pass input l).pass input l').cursor = (acc.pass input l').cursor := by
    refine (hcursor'.moveTo_place hl').ext (hcursor.moveTo_place hl') ?_
    simp only [cursor_pass, Position.location_moveTo, Location.further_further_of_le hle]
  have hstops : ((acc.pass input l).pass input l').stop = (acc.pass input l').stop := by
    refine (sits_stop_pass hcursor' (sits_stop_pass hcursor hstop hl) hl').ext (sits_stop_pass hcursor hstop hl') ?_
    simp only [location_stop_pass, cursor_pass, Position.location_moveTo, Location.further_further_of_le hle,
      Location.further_further_of_le (Location.further_mono hle)]
  show Accumulator.mk acc.start _ _ true acc.results = .mk acc.start _ _ true acc.results
  exact congrArg₂ (Accumulator.mk acc.start · · true acc.results) hstops hcursors

/-- Where a stretch starts in which a tree's pieces come next. -/
def startWith (input : List Char) (acc : Accumulator) (items : List Tree) : Position :=
  if acc.begun then acc.start else items.head?.elim acc.start fun first => acc.cursor.moveTo input first.extent.start

/-- Collecting trees one by one up to a place is going there in one go, with all of them for results. -/
theorem pass_foldl_add (hl : Position.Place input l) : ∀ {items : List Tree} {acc : Accumulator},
    acc.cursor.Sits input → acc.stop.Sits input →
    (∀ item ∈ items, Position.Place input item.extent.stop ∧ item.extent.stop ≤ l) →
    (items.foldl (add input) acc).pass input l = { acc.pass input l with
      start := acc.startWith input items, results := acc.results ++ items.toArray }
  | [], acc, _, _, _ => by
    have hstart : acc.startWith input [] = acc.start := by simp [startWith]
    rw [hstart, Array.append_empty]
    rfl
  | t :: items, acc, hcursor, hstop, hitems => by
    obtain ⟨hplace, hle⟩ := hitems t List.mem_cons_self
    have hrest : (items.foldl (add input) (acc.add input t)).pass input l = _ :=
      pass_foldl_add hl (hcursor.moveTo_place hplace) (sits_stop_pass hcursor hstop hplace) fun item hm =>
        hitems item (List.mem_cons_of_mem _ hm)
    have hadd : (acc.add input t).pass input l = { acc.pass input l with
        start := (acc.add input t).start, results := (acc.add input t).results } :=
      congrArg (fun a : Accumulator => { a with start := (acc.add input t).start, results := (acc.add input t).results })
        (pass_pass hcursor hstop hplace hl hle)
    rw [List.foldl_cons, hrest, hadd]
    simp [startWith, add, pass]

end Accumulator

/-- A merge collects the pieces of a value up to its end. -/
theorem Run.collect_pieces {input : List Char} {run : Run} {t : Tree} (hflatten : run.flatten = true)
    (hcursor : run.collected.cursor.Sits input) (hstop : run.collected.stop.Sits input) (ht : t.Spans (Span.Of input))
    (hencloses : t.Encloses) : run.collect input t = { run.collected.pass input t.extent.stop with
      start := run.collected.startWith input t.pieces, results := run.collected.results ++ t.pieces.toArray } := by
  cases t with
  | list place items =>
    unfold Run.collect
    simp only [hflatten]
    refine Accumulator.pass_foldl_add ht.extent.stop hcursor hstop fun item hm => ?_
    exact ⟨(Tree.Spans.extent (ht.child hm)).stop, (hencloses items rfl).2 item hm⟩
  | text | found | node =>
    simp [Run.collect, Accumulator.add, Accumulator.startWith, Accumulator.pass, Tree.pieces, Tree.items?]

/-! ## Side by side -/

namespace Accumulator

variable {input : List Char} {acc acc' : Accumulator} {t : Tree} {l : Location}

/-- What a merge has collected where a sequence of the same parts is as far: the pieces of its results, over the
same stretch. Only the start of it may differ, if the first result of the sequence does not begin where its
pieces do. -/
structure Flattens (acc acc' : Accumulator) : Prop where
  cursor : acc'.cursor = acc.cursor
  stop : acc'.stop = acc.stop
  begun : acc'.begun = acc.begun
  results : acc'.results.toList = acc.results.toList.flatMap Tree.pieces
  start : (∀ first, acc.results.toList.head? = some first → first.OpensEvenly acc'.start.location) →
    acc'.start = acc.start

namespace Flattens

theorem new (p : Position) : (Accumulator.new p).Flattens (.new p) := ⟨rfl, rfl, rfl, rfl, fun _ => rfl⟩

theorem pass (h : acc.Flattens acc') (l : Location) : (acc.pass input l).Flattens (acc'.pass input l) where
  cursor := by rw [cursor_pass, cursor_pass, h.cursor]
  stop := by
    unfold Accumulator.pass
    rw [h.cursor, h.stop]
  begun := rfl
  results := h.results
  start := h.start

theorem start_eq (h : acc.Flattens acc') (hacc : acc.Enclosing) (hb : acc.begun = false) : acc'.start = acc.start :=
  h.start fun first hf => by simp [hacc.none hb] at hf

theorem skip (h : acc.Flattens acc') (l : Location) : (acc.skip input l).Flattens (acc'.skip input l) := by
  unfold Accumulator.skip
  simp only [h.begun, h.cursor]
  split
  · exact ⟨rfl, h.stop, rfl, h.results, h.start⟩
  · exact ⟨rfl, rfl, rfl, h.results, fun _ => rfl⟩

/-- With a value or with its pieces, the stretch starts at the same place if the first result begins where its
pieces do. -/
theorem startWith_pieces (h : acc.Flattens acc') (hfaithful : acc.Faithful input) (hacc : acc.Enclosing)
    (hfirst : ∀ first, (acc.add input t).results.toList.head? = some first →
      first.OpensEvenly (acc'.startWith input t.pieces).location) :
    acc'.startWith input t.pieces = (acc.add input t).start := by
  rw [results_add, Array.toList_push, List.head?_append] at hfirst
  show acc'.startWith input t.pieces = if acc.begun then _ else _
  unfold startWith at hfirst ⊢
  rw [h.begun] at hfirst ⊢
  cases hb : acc.begun with
  | true =>
    refine h.start fun first hf => ?_
    simpa [hb] using hfirst first (by simp [hf])
  | false =>
    -- nothing was taken yet, so the value is the first result
    have hopens := hfirst t (by simp [hacc.none hb])
    simp only [hb, h.start_eq hacc hb, (hfaithful.idle hb).1, h.cursor, Bool.false_eq_true, if_false] at hopens ⊢
    unfold Tree.OpensEvenly at hopens
    cases hp : t.pieces.head? with
    | none =>
      rw [hp] at hopens
      exact (Position.moveTo_of_le hopens).symm
    | some first =>
      rw [hp] at hopens
      simp only [Option.elim_some, hopens]

/-- A value is collected beside its pieces. -/
theorem collect {run run' : Run} (h : run.collected.Flattens run'.collected) (hflatten : run.flatten = false)
    (hflatten' : run'.flatten = true) (hfaithful : run.collected.Faithful input) (hacc : run.collected.Enclosing)
    (ht : t.Spans (Span.Of input)) (hencloses : t.Encloses) : (run.collect input t).Flattens (run'.collect input t) := by
  have hcollect : run.collect input t = run.collected.add input t := by
    cases t <;> simp [Run.collect, hflatten]
  have hcursor := h.cursor ▸ hfaithful.sits_cursor
  have hstop := h.stop ▸ hfaithful.sits_stop
  have hpass : (run.collected.pass input t.extent.stop).Flattens _ := h.pass t.extent.stop
  rw [hcollect, Run.collect_pieces hflatten' hcursor hstop ht hencloses]
  exact ⟨hpass.cursor, hpass.stop, rfl, by simp [h.results], h.startWith_pieces hfaithful hacc⟩

end Flattens

end Accumulator

/-- Taken in one session of the stance, two steps leave one session of it, with results that go together. -/
def Stance.Pairs {α α' : Type} (k : Stance) (R : α → α' → Prop) (x : Eval α) (x' : Eval α') : Prop :=
  ∀ s, k.Fits s → R (x.on s).1 (x'.on s).1 ∧ (x'.on s).2 = (x.on s).2 ∧ k.Fits (x.on s).2

namespace Stance.Pairs

variable {α α' β β' : Type} {k : Stance} {R : α → α' → Prop} {S : β → β' → Prop} {x : Eval α} {x' : Eval α'}

theorem pure {a : α} {a' : α'} (h : R a a') : k.Pairs R (Pure.pure a) (Pure.pure a') := fun _ hs => ⟨h, rfl, hs⟩

theorem bind {f : α → Eval β} {f' : α' → Eval β'} (hx : k.Pairs R x x')
    (hf : ∀ a a', R a a' → k.Pairs S (f a) (f' a')) : k.Pairs S (x >>= f) (x' >>= f') := by
  intro s hs
  obtain ⟨hR, hsame, hs'⟩ := hx s hs
  rw [Eval.on_bind, Eval.on_bind, hsame]
  exact hf _ _ hR _ hs'

/-- One step is taken in both. -/
theorem shared {Q : α → Prop} {f : α → Eval β} {f' : α → Eval β'} (hk : ∀ c, ¬ k.alarm.rung c)
    (hx : k.Yields True x Q) (hf : ∀ a, Q a → k.Pairs S (f a) (f' a)) : k.Pairs S (x >>= f) (x >>= f') := by
  intro s hs
  obtain ⟨hQ, hs'⟩ := ((hx s).2 trivial hs).resolve_left (hk _)
  exact hf _ hQ _ hs'

theorem bind_get {f : Session → Eval α} {f' : Session → Eval α'} (hf : ∀ s, k.Pairs R (f s) (f' s)) :
    k.Pairs R (get >>= f) (get >>= f') := fun s hs => hf s s hs

theorem ite {c : Prop} [Decidable c] {y : Eval α} {y' : Eval α'} (hx : c → k.Pairs R x x')
    (hy : ¬ c → k.Pairs R y y') : k.Pairs R (if c then x else y) (if c then x' else y') := by
  split
  · next h => exact hx h
  · next h => exact hy h

end Stance.Pairs

/-! ## Sequences and merges -/

/-- Lists end within the text, and no earlier than their items. -/
abbrev Job.placement (job : Job) : Contract job := job.fidelity.and job.enclosure

theorem Job.placement_lawful {job : Job} (hg : job.grammar.Textual)
    (ha : ∀ p, job.grammar.Has (.pattern p) → p.Anchored job.grammar.engine) : job.placement.Lawful :=
  (job.fidelity_lawful hg ha).and (job.enclosure_lawful hg)

/-- The merge that is as far as a sequence of the same parts, with what it has collected instead. -/
def Run.merging (run : Run) (acc : Accumulator) : Run := { run with flatten := true, collected := acc }

section

variable {job : Job} {m : Mark} {depth : Nat} {apply : Applier} {run : Run} {acc : Accumulator} {part : Expr}

/-- A sequence under way, and what a merge beside it has collected. -/
structure Run.Abreast (job : Job) (m : Mark) (run : Run) (acc : Accumulator) : Prop where
  sequence : run.flatten = false
  fresh : run.growing = false
  has : ∀ part ∈ run.parts, job.grammar.Has part
  mode : job.grammar.Mode run.setting.skipping
  behind : m.Behind run.collected.cursor.location
  faithful : run.collected.Faithful job.input
  enclosing : run.collected.Enclosing
  flattens : run.collected.Flattens acc

/-- What the parts of a sequence come to, and those of a merge beside it. -/
inductive Run.Level (job : Job) (m : Mark) : Except Attempt Run → Except Attempt Run → Prop
  | further {run : Run} {acc : Accumulator} : run.Abreast job m acc → Level job m (.ok run) (.ok (run.merging acc))
  | failed {f : Failure} : Level job m (.error (.settled (.failed f))) (.error (.settled (.failed f)))
  | recursion {s s' : Option Suspension} : Level job m (.error (.recursion s)) (.error (.recursion s'))
  | broken {error : GrammarError} : Level job m (.error (.broken error)) (.error (.broken error))

/-- What is skipped behind a sequence and behind a merge beside it. -/
inductive Accumulator.Skipped (input : List Char) (acc acc' : Accumulator) :
    Except GrammarError (Option Accumulator) → Except GrammarError (Option Accumulator) → Prop
  | nothing : Skipped input acc acc' (.ok none) (.ok none)
  | upTo {stop : Location} : Position.Place input stop →
    Skipped input acc acc' (.ok (some (acc.skip input stop))) (.ok (some (acc'.skip input stop)))
  | broken {error : GrammarError} : Skipped input acc acc' (.error error) (.error error)

namespace Run.Abreast

variable (h : run.Abreast job m acc)
include h

theorem here : (run.merging acc).here = run.here := by
  unfold Run.here
  rw [show (run.merging acc).collected.cursor = run.collected.cursor from h.flattens.cursor]
  rfl

theorem admits (hp : part ∈ run.parts) : job.placement.Admits m part run.here :=
  ⟨h.has part hp, ⟨h.faithful.sits_cursor, trivial⟩, h.mode, h.behind⟩

/-- Both go on to the next part. -/
theorem next {further further' : Accumulator} (hle : run.collected.cursor.location ≤ further.cursor.location)
    (hfaithful : further.Faithful job.input) (henclosing : further.Enclosing) (hflattens : further.Flattens further')
    (silence : Option Silence) : (run.next further silence).Abreast job m further' :=
  { h with behind := h.behind.mono hle, faithful := hfaithful, enclosing := henclosing, flattens := hflattens }

theorem skip {stop : Location} (hstop : Position.Place job.input stop) :
    ({ run with collected := run.collected.skip job.input stop } : Run).Abreast job m (acc.skip job.input stop) := by
  refine { h with
    behind := h.behind.mono ?_, faithful := h.faithful.skip hstop, enclosing := h.enclosing.skip stop,
    flattens := h.flattens.skip stop }
  rw [Accumulator.cursor_skip]
  exact Position.le_moveTo _ _

theorem skipBetween (hkept : job.placement.KeptBy m depth apply) : (job.placement.stance m depth).Pairs
    (Accumulator.Skipped job.input run.collected acc) (skipBetween job apply run.setting run.collected)
      (skipBetween job apply run.setting acc) := by
  unfold Packrat.skipBetween
  rw [h.flattens.cursor]
  split
  · exact .pure .nothing
  · next skipper hs =>
    have hadmits : job.placement.Admits m skipper (run.setting.moved run.collected.cursor) :=
      ⟨h.mode.has hs, ⟨h.faithful.sits_cursor, trivial⟩, h.mode, h.behind⟩
    refine .shared (fun _ => id) (hkept skipper _ hadmits) fun a ha => ?_
    split
    · exact .pure .broken
    · refine .pure ?_
      cases hstop : a.skipStop? with
      | none => exact .nothing
      | some stop =>
        simp only [Option.bind_some, Accumulator.skip?, h.flattens.cursor]
        split
        · exact .nothing
        · next hlt =>
          cases a with
          | settled v => exact .upTo (job.fidelity_skips ⟨skipper, v, hs, ha.1, hstop, Location.not_le.1 hlt⟩)
          | recursion | broken => cases hstop

/-- What came of a part takes both on, or it ends both. -/
theorem absorb (hkept : job.placement.KeptBy m depth apply) {a : Attempt} {R : Option Suspension → Prop}
    (ha : job.placement.Comes R part run.collected.cursor a) : (job.placement.stance m depth).Pairs (Run.Level job m)
      (run.absorb job apply a) ((run.merging acc).absorb job apply a) := by
  rcases a with (t | why | span | failure) | (_ | suspension) | error
  · obtain ⟨hfaithful, henclosing⟩ := ha
    have hflattens : (run.collect job.input t).Flattens ((run.merging acc).collect job.input t) :=
      .collect h.flattens h.sequence rfl h.faithful h.enclosing hfaithful henclosing.here
    exact .pure (.further (h.next (Run.le_cursor_collect t) (h.faithful.collect hfaithful) (h.enclosing.collect henclosing)
      hflattens none))
  · exact .pure (.further (h.next (Location.le_refl _) h.faithful h.enclosing h.flattens (some why)))
  · exact .pure (.further (h.next (Position.le_moveTo _ _) (h.faithful.pass ha.1.stop) (h.enclosing.pass _)
      (h.flattens.pass _) none))
  · refine .bind (h.skipBetween hkept) fun skipped skipped' hs => ?_
    cases hs with
    | nothing => exact .pure .failed
    | upTo hstop => exact .pure (.further (h.skip hstop))
    | broken => exact .pure .broken
  · exact .pure .recursion
  · exact .pure .recursion
  · exact .pure .broken

end Run.Abreast

/-- Part by part, a sequence and a merge keep abreast. -/
theorem Run.Abreast.drive (hkept : job.placement.KeptBy m depth apply) : ∀ (fuel : Nat) {run : Run} {acc : Accumulator},
    run.Abreast job m acc → (job.placement.stance m depth).Pairs (Run.Level job m) (run.drive job apply fuel)
      ((run.merging acc).drive job apply fuel)
  | 0, run, acc, h => by
    unfold Run.drive
    rw [h.here]
    exact .pure .failed
  | fuel + 1, run, acc, h => by
    unfold Run.drive
    rw [h.here]
    simp only [show (run.merging acc).parts = run.parts from rfl, show (run.merging acc).done = run.done from rfl]
    cases hp : run.parts[run.done]? with
    | none => exact .pure (.further h)
    | some part =>
      refine .bind_get fun s => .ite (fun _ => ?_) fun _ => ?_
      · refine .shared (Q := fun _ => True) (fun _ => id) (.reportReentry) fun _ _ => .pure .recursion
      · refine .shared (fun _ => id) (hkept part _ (h.admits (List.mem_of_getElem? hp))) fun a ha => ?_
        refine .bind (h.absorb hkept ha) fun r r' hr => ?_
        cases hr with
        | further h => exact Run.Abreast.drive hkept fuel h
        | failed => exact .pure .failed
        | recursion => exact .pure .recursion
        | broken => exact .pure .broken

/-! ## What they come to -/

/-- The tree of what is collected is the list without items if there is nothing, or only such a list. -/
theorem Accumulator.isNil_tree {input : List Char} : (acc.tree input).isNil = true ↔
    acc.results.toList.length ≤ 1 ∧ ∀ t ∈ acc.results.toList, t.isNil = true := by
  unfold Accumulator.tree
  split
  · next t ht => simp [ht, Tree.inside, Tree.isNil_iff, Tree.items?_setPlace]
  · next hne =>
    rw [Tree.isNil_iff, Tree.items?, Option.some.injEq]
    constructor
    · intro h
      simp [h]
    · rintro ⟨hlength, -⟩
      rcases Nat.le_one_iff_eq_zero_or_eq_one.1 hlength with h | h
      · exact List.length_eq_zero_iff.1 h
      · obtain ⟨t, ht⟩ := List.length_eq_one_iff.1 h
        exact absurd ht (hne t)

/-- A merge has no more than the list without items if its parts have no more than such lists. -/
theorem Accumulator.Flattens.isNil_tree {input : List Char} {acc acc' : Accumulator} (h : acc.Flattens acc')
    (hacc : acc.Enclosing) : (acc'.tree input).isNil = true ↔ ∀ t ∈ acc.results.toList, t.isNil = true := by
  rw [Accumulator.isNil_tree, h.results]
  constructor
  · rintro ⟨hlength, hnil⟩ t ht
    have hencloses := (hacc.results t (Array.mem_toList_iff.1 ht)).1.here
    refine hencloses.isNil_iff.2 ⟨?_, fun u hu => hnil u (List.mem_flatMap.2 ⟨t, ht, hu⟩)⟩
    rw [List.flatMap_def] at hlength
    exact Nat.le_trans (List.sublist_flatten_of_mem (List.mem_map_of_mem ht)).length_le hlength
  · intro hnil
    have hpieces : acc.results.toList.flatMap Tree.pieces = [] :=
      List.flatMap_eq_nil_iff.2 fun t ht => by rw [Tree.pieces, Tree.isNil_iff.1 (hnil t ht), Option.getD_some]
    simp [hpieces]

/-- The last part of a sequence has no value, and the others have two or more, all lists without items. -/
def Run.Blank (run : Run) : Prop :=
  run.silence.isSome = true ∧ 2 ≤ run.collected.results.size ∧ ∀ t ∈ run.collected.results, t.isNil = true

/-- The value of a merge beside that of a sequence of the same parts: it has the pieces of the results, it ends
where the other does, and it covers the same text if the first of the results begins where its pieces do. -/
structure Run.Flattens (job : Job) (last last' : Run) : Prop where
  results : last'.collected.results.toList = last.collected.results.toList.flatMap Tree.pieces
  stop : (last'.collected.tree job.input).extent.stop = (last.collected.tree job.input).extent.stop
  extent : (∀ first, last.collected.results.toList.head? = some first →
    first.OpensEvenly (last'.collected.tree job.input).extent.start) →
      (last'.collected.tree job.input).extent = (last.collected.tree job.input).extent

theorem Run.Abreast.flattens_merging (h : run.Abreast job m acc) : run.Flattens job (run.merging acc) where
  results := h.flattens.results
  stop := by
    rw [Accumulator.extent_tree, Accumulator.extent_tree]
    exact congrArg Position.location h.flattens.stop
  extent hfirst := by
    rw [Accumulator.extent_tree] at hfirst
    rw [Accumulator.extent_tree, Accumulator.extent_tree]
    unfold Accumulator.span
    rw [show (run.merging acc).collected.start = run.collected.start from h.flattens.start hfirst,
      show (run.merging acc).collected.stop = run.collected.stop from h.flattens.stop]

/-- What comes of a sequence and of a merge of the same parts that were driven to their ends. -/
inductive Run.Results (job : Job) (r r' : Except Attempt Run) : Attempt → Attempt → Prop
  | value {last last' : Run} : r = .ok last → r' = .ok last' → ¬ last.Blank → last.Flattens job last' →
    Results job r r' (.settled (.matched (last.collected.tree job.input)))
      (.settled (.matched (last'.collected.tree job.input)))
  | blank {last : Run} {why : Silence} : r = .ok last → last.Blank → last.silence = some why →
    Results job r r' (.settled (.matched (last.collected.tree job.input))) (.settled (.silent why))
  | silent {why : Silence} : Results job r r' (.settled (.silent why)) (.settled (.silent why))
  | failed {f : Failure} : Results job r r' (.settled (.failed f)) (.settled (.failed f))
  | recursion {s s' : Option Suspension} : Results job r r' (.recursion s) (.recursion s')
  | broken {error : GrammarError} : Results job r r' (.broken error) (.broken error)

theorem Run.Abreast.results (h : run.Abreast job m acc) : Run.Results job (.ok run) (.ok (run.merging acc))
    (.settled (run.conclude job)) (.settled ((run.merging acc).conclude job)) := by
  have hnil : (acc.tree job.input).isNil = true ↔ _ := h.flattens.isNil_tree h.enclosing
  have hvalue (hb : ¬ run.Blank) : Run.Results job (.ok run) (.ok (run.merging acc)) _ _ :=
    .value rfl rfl hb h.flattens_merging
  unfold Run.conclude
  simp only [show (run.merging acc).silence = run.silence from rfl]
  cases hs : run.silence with
  | none => exact hvalue fun hb => by simp [Run.Blank, hs] at hb
  | some why =>
    by_cases hall : ∀ t ∈ run.collected.results.toList, t.isNil = true
    · simp only [show ((run.merging acc).collected.tree job.input).isNil = true from hnil.2 hall, if_true]
      by_cases hlength : run.collected.results.toList.length ≤ 1
      · simp only [Accumulator.isNil_tree.2 ⟨hlength, hall⟩, if_true]
        exact .silent
      · have hseq : (run.collected.tree job.input).isNil ≠ true := fun hn => hlength (Accumulator.isNil_tree.1 hn).1
        simp only [if_neg hseq]
        refine .blank rfl ⟨by simp [hs], ?_, fun t ht => hall t (Array.mem_toList_iff.2 ht)⟩ hs
        exact Nat.lt_of_not_le hlength
    · have hmerge : ((run.merging acc).collected.tree job.input).isNil ≠ true := fun hn => hall (hnil.1 hn)
      have hseq : (run.collected.tree job.input).isNil ≠ true := fun hn => hall (Accumulator.isNil_tree.1 hn).2
      simp only [if_neg hmerge, if_neg hseq]
      exact hvalue fun hb => hall fun t ht => hb.2.2 t (Array.mem_toList_iff.1 ht)

/-- What comes of a run that does not grow when it was driven to its end. -/
def Run.outcome (job : Job) : Except Attempt Run → Attempt
  | .ok last => .settled (last.conclude job)
  | .error attempt => attempt

namespace Run.Level

variable {r r' : Except Attempt Run}

theorem results (h : Run.Level job m r r') : Run.Results job r r' (Run.outcome job r) (Run.outcome job r') := by
  cases h with
  | further h => exact h.results
  | failed => exact .failed
  | recursion => exact .recursion
  | broken => exact .broken

/-- Neither grows. -/
theorem ending (h : Run.Level job m r r') : Run.ending job apply r = pure (Run.outcome job r) ∧
    Run.ending job apply r' = pure (Run.outcome job r') := by
  cases h with
  | further h => exact ⟨if_neg (by simp [h.fresh]), if_neg (by simp [Run.merging, h.fresh])⟩
  | failed | recursion | broken => exact ⟨rfl, rfl⟩

end Run.Level

theorem trySequence_on {parts : List Expr} {flatten : Bool} {setting : Setting} {s : Session} {a : Attempt}
    (h : Run.ending job apply (((Run.new parts flatten setting 0).drive job apply
      ((Run.new parts flatten setting 0).fuel job)).on s).1 = pure a) :
    (trySequence job apply parts flatten setting).on s = (a, (((Run.new parts flatten setting 0).drive job apply
      ((Run.new parts flatten setting 0).fuel job)).on s).2) := by
  rw [trySequence, Run.finish_eq_ending, Eval.on_bind, h]
  rfl

/-- Where a parse takes its results from the text, every expression can be tried anywhere in it to begin with,
and trying one leaves a session in which others can be tried. Tried in such a session, a sequence and a merge of
the same parts leave the same session, and what comes of them goes together: they fail with the same failure or
the same error of the grammar, and they come back to a rule together. Where the sequence has a value, the merge
has a value with the pieces of its results. But where these are lists without items, and two or more, and the
last part has no value, the merge has none either. -/
theorem Job.merge_flattens (job : Job) (hg : job.grammar.Textual) (ha : ∀ p, job.grammar.Has (.pattern p) → p.Anchored job.grammar.engine)
    (levels : Nat) :
    (∀ e (setting : Setting), job.grammar.Has e → setting.position.Sits job.input →
      job.grammar.Mode setting.skipping → job.placement.Ready e setting .start) ∧
    (∀ e setting e' setting' s, job.placement.Ready e setting s → job.placement.Ready e' setting' s →
      job.placement.Ready e' setting' ((applyWithin job levels e setting).on s).2) ∧
    ∀ parts setting s, parts ≠ [] → (∀ part ∈ parts, job.placement.Ready part setting s) →
      let sequence := Run.new parts false setting 0
      let merge := Run.new parts true setting 0
      Run.Results job ((sequence.drive job (applyWithin job levels) (sequence.fuel job)).on s).1
        ((merge.drive job (applyWithin job levels) (merge.fuel job)).on s).1
        ((evaluate job (applyWithin job levels) (.sequence parts) setting).on s).1
        ((evaluate job (applyWithin job levels) (.merge parts) setting).on s).1 ∧
      ((evaluate job (applyWithin job levels) (.merge parts) setting).on s).2 =
        ((evaluate job (applyWithin job levels) (.sequence parts) setting).on s).2 := by
  have hC := job.placement_lawful hg ha
  refine ⟨fun e setting hhas hsits hmode =>
      ⟨Memory.keeps_empty, fun _ => Nat.le_refl _, hhas, ⟨hsits, trivial⟩, hmode, nofun⟩,
    fun e setting e' setting' s h h' => h'.after (h.yields (hC.kept levels _ _ e setting h.admits)).2,
    fun parts setting s hne hparts => ?_⟩
  obtain ⟨part, hpart⟩ := List.exists_mem_of_ne_nil parts hne
  have hready := hparts part hpart
  have habreast : (Run.new parts false setting 0).Abreast job s.entered (.new setting.position) :=
    { sequence := rfl, fresh := rfl, has := fun part hp => (hparts part hp).admits.has, mode := hready.admits.mode
      behind := hready.admits.behind, faithful := .new hready.admits.sits.1, enclosing := .new, flattens := .new _ }
  obtain ⟨hlevel, hsession, -⟩ :=
    habreast.drive (hC.kept levels s.entered s.depth) ((Run.new parts false setting 0).fuel job) s hready.fits
  obtain ⟨hsequence, hmerge⟩ := @Run.Level.ending _ _ (applyWithin job levels) _ _ hlevel
  have hsequence : (trySequence job (applyWithin job levels) parts false setting).on s = _ := trySequence_on hsequence
  have hmerge : (trySequence job (applyWithin job levels) parts true setting).on s = _ := trySequence_on hmerge
  simp only [evaluate, hsequence, hmerge]
  exact ⟨hlevel.results, hsession⟩

end

namespace Grammar

/-- A grammar of one sequence, in which nothing is skipped. -/
def ofParts (parts : List Expr) : Grammar where
  start := "s"
  rules := [("s", .sequence parts)]
  skipper := none
  overrides := []
  productions := []
  kinds := .empty

/-- Reading a text by it. -/
def ofParts.reading (parts : List Expr) (text : List Char) : Job :=
  .new (ofParts parts) (.rule "s") .standard .nothing text

/-- What comes of trying an expression at the beginning of the text. -/
def ofParts.tried (parts : List Expr) (text : List Char) (e : Expr) : Attempt :=
  ((evaluate (ofParts.reading parts text) (applyWithin (ofParts.reading parts text) 8) e .start).on .start).1

theorem ofParts.has {parts : List Expr} {part : Expr} (h : part ∈ parts) : (ofParts parts).Has part :=
  (Has.body (show (ofParts parts).rule? "s" = some (.sequence parts) from rfl)).part h

/-- Letters, and one after them. -/
def severalLetters : List Expr := [.repetition (.literal ['a']) ⟨0, none⟩ none, .literal ['b']]

theorem merge_flattens_letters : let input := ['a', 'a', 'b']
    ∃ last last' : Run,
      ofParts.tried severalLetters input (.sequence severalLetters) = .settled (.matched (last.collected.tree input)) ∧
      ofParts.tried severalLetters input (.merge severalLetters) = .settled (.matched (last'.collected.tree input)) ∧
      last.Flattens (ofParts.reading severalLetters input) last' := by
  intro input
  have hflattens := (ofParts.reading severalLetters input).merge_flattens (textual_of_check (by decide +kernel))
    (anchored_of_check (by decide +kernel)) 8
  have hready (part : Expr) (h : part ∈ severalLetters) :
      (ofParts.reading severalLetters input).placement.Ready part .start .start :=
    hflattens.1 part .start (ofParts.has h) Position.sits_origin .standard
  have hresults := (hflattens.2.2 severalLetters .start .start (by decide) hready).1
  have hvalue : (ofParts.tried severalLetters input (.merge severalLetters)).tree?.isSome = true := by
    decide +kernel
  unfold ofParts.tried at hvalue ⊢
  generalize ((evaluate _ _ (.sequence severalLetters) .start).on .start).1 = a at hresults ⊢
  generalize ((evaluate _ _ (.merge severalLetters) .start).on .start).1 = a' at hresults hvalue ⊢
  cases hresults with
  | value _ _ _ h => exact ⟨_, _, rfl, rfl, h⟩
  | blank | silent | failed | recursion | broken => cases hvalue

/-- Marks of which none has to be there. -/
def looseMarks : List Expr :=
  [.repetition (.literal ['a']) ⟨0, some 1⟩ (some .nil), .repetition (.literal ['b']) ⟨0, some 1⟩ (some .nil),
    .repetition (.literal ['c']) ⟨0, none⟩ none]

/-- Letters in parentheses, of which the first is left out. -/
def enclosedLetters : List Expr :=
  [.sequence [.omission (.literal ['(']), .literal ['a'], .literal ['b']], .literal [')']]

/-- Without any mark, a sequence of them has a value and a merge has none. And where the first part of a merge leaves
out what it begins with, the merge does not cover that, but a sequence does. -/
theorem merge_falls_short :
    ((ofParts.tried looseMarks [] (.sequence looseMarks)).tree?.isSome = true ∧
      (ofParts.tried looseMarks [] (.merge looseMarks)).silence? = some .tookNothing) ∧
    (ofParts.tried enclosedLetters ['(', 'a', 'b', ')'] (.sequence enclosedLetters)).tree?.map Tree.extent =
      some ⟨⟨0, 0⟩, ⟨0, 4⟩, ['(', 'a', 'b', ')']⟩ ∧
    (ofParts.tried enclosedLetters ['(', 'a', 'b', ')'] (.merge enclosedLetters)).tree?.map Tree.extent =
      some ⟨⟨0, 1⟩, ⟨0, 4⟩, ['a', 'b', ')']⟩ :=
  ⟨⟨by decide +kernel, by decide +kernel⟩, by decide +kernel, by decide +kernel⟩

end Grammar

end Packrat

/-
What sequences and repetitions collect. On a ground, a set of positions that moving to the
locations of results does not leave, everything collected stays. The cursor never moves back, and
it ends behind every result that was taken. Nothing but hollow results make a hollow tree.
-/
import Packrat.Parse.Run
import Packrat.Parse.Rounds
import Packrat.Proofs.Text.Places
import Packrat.Proofs.Tree.Shape

namespace Packrat

/-- Positions and locations of a text such that moving from one of the positions to one of the
locations leads to one of the positions again. -/
structure Ground (input : List Char) where
  At : Position → Prop
  Loc : Location → Prop
  location : ∀ {p}, At p → Loc p.location
  moveTo : ∀ {p l}, At p → Loc l → At (p.moveTo input l)

namespace Ground

variable (input : List Char)

/-- All positions and locations there are. -/
def all : Ground input := ⟨fun _ => True, fun _ => True, fun _ => trivial, fun _ _ => trivial⟩

/-- The positions that sit in the text. -/
def text : Ground input :=
  ⟨Position.Sits input, Position.Place input, Position.Sits.place, Position.Sits.moveTo_place⟩

/-- The positions of a ground up to a location. -/
def upTo {input : List Char} (G : Ground input) (stop : Location) : Ground input where
  At p := G.At p ∧ p.location ≤ stop
  Loc l := G.Loc l ∧ l ≤ stop
  location h := ⟨G.location h.1, h.2⟩
  moveTo {p l} hp hl := by
    refine ⟨G.moveTo hp.1 hl.1, ?_⟩
    rw [Position.location_moveTo]
    unfold Location.further
    split
    · exact hl.2
    · exact hp.2

end Ground

namespace Accumulator

variable {input : List Char} {G : Ground input} {acc : Accumulator}

/-- All that is collected is on the ground. -/
structure Stands (G : Ground input) (acc : Accumulator) : Prop where
  start : G.At acc.start
  stop : G.At acc.stop
  cursor : G.At acc.cursor
  results : ∀ t ∈ acc.results, t.Lies G.Loc

theorem stands_new {p : Position} (h : G.At p) : (new p).Stands G := ⟨h, h, h, by simp [new]⟩

theorem Stands.mono {G' : Ground input} (h : acc.Stands G) (hAt : ∀ p, G.At p → G'.At p)
    (hLoc : ∀ l, G.Loc l → G'.Loc l) : acc.Stands G' :=
  ⟨hAt _ h.start, hAt _ h.stop, hAt _ h.cursor, fun t ht => (h.results t ht).mono hLoc⟩

theorem Stands.pass {l : Location} (h : acc.Stands G) (hl : G.Loc l) : (acc.pass input l).Stands G := by
  refine ⟨h.start, ?_, G.moveTo h.cursor hl, h.results⟩
  show G.At (if acc.stop.location < (acc.cursor.moveTo input l).location then _ else _)
  split
  · exact G.moveTo h.cursor hl
  · exact h.stop

theorem Stands.add {t : Tree} (h : acc.Stands G) (ht : t.Lies G.Loc) : (acc.add input t).Stands G := by
  have hp := h.pass (l := t.extent.stop) ht.stop
  refine ⟨?_, hp.stop, hp.cursor, fun u hu => ?_⟩
  · show G.At (if acc.begun then _ else _)
    split
    · exact h.start
    · exact G.moveTo h.cursor ht.start
  · rcases Array.mem_push.1 hu with hu | rfl
    · exact h.results u hu
    · exact ht

theorem Stands.skip {l : Location} (h : acc.Stands G) (hl : G.Loc l) : (acc.skip input l).Stands G := by
  unfold Accumulator.skip
  have hc := G.moveTo h.cursor hl
  simp only
  split
  · exact ⟨h.start, h.stop, hc, h.results⟩
  · exact ⟨hc, hc, hc, h.results⟩

theorem Stands.tree (h : acc.Stands G) : (acc.tree input).Lies G.Loc := by
  have h1 : G.Loc (acc.span input).start := G.location h.start
  have h2 : G.Loc (acc.span input).stop := G.location h.stop
  unfold Accumulator.tree
  split
  · next t ht => exact (h.results t (by rw [← Array.mem_toList_iff, ht]; simp)).inside h1 h2
  · refine .intro h1 h2 fun items hi item hm => h.results item ?_
    cases hi
    exact Array.mem_toList_iff.1 hm

/-! ## The cursor -/

@[simp] theorem cursor_pass (l : Location) : (acc.pass input l).cursor = acc.cursor.moveTo input l := rfl

@[simp] theorem cursor_add (t : Tree) : (acc.add input t).cursor = acc.cursor.moveTo input t.extent.stop := rfl

@[simp] theorem cursor_skip (l : Location) : (acc.skip input l).cursor = acc.cursor.moveTo input l := by
  unfold Accumulator.skip
  simp only
  split <;> rfl

theorem stop_pass (h : acc.stop = acc.cursor) (l : Location) : (acc.pass input l).stop = (acc.pass input l).cursor := by
  show (if acc.stop.location < (acc.cursor.moveTo input l).location then _ else _) = _
  split
  · rfl
  · next hn =>
    rw [h] at hn ⊢
    by_cases hl : l ≤ acc.cursor.location
    · exact (Position.moveTo_of_le hl).symm
    · rw [Position.location_moveTo_of_le ((Location.le_total _ _).resolve_left hl)] at hn
      exact absurd (Location.not_le.1 hl) hn

theorem stop_add (h : acc.stop = acc.cursor) (t : Tree) : (acc.add input t).stop = (acc.add input t).cursor :=
  stop_pass h _

/-- The collected stretch ends at the cursor or before. -/
theorem stop_le_pass (h : acc.stop.location ≤ acc.cursor.location) (l : Location) :
    (acc.pass input l).stop.location ≤ (acc.pass input l).cursor.location := by
  show Position.location (if acc.stop.location < (acc.cursor.moveTo input l).location then _ else _) ≤ _
  split
  · exact Location.le_refl _
  · exact Location.le_trans h (Position.le_moveTo _ _)

theorem cursor_le_stop_pass (acc : Accumulator) {l : Location} :
    (acc.pass input l).cursor.location ≤ (acc.pass input l).stop.location := by
  show (acc.cursor.moveTo input l).location ≤
    Position.location (if acc.stop.location < (acc.cursor.moveTo input l).location then _ else _)
  split
  · exact Location.le_refl _
  · next h => exact Location.not_lt.1 h

/-- The collected stretch is in order: it starts before it ends and ends before the cursor, and as
long as nothing was taken it is at the cursor. -/
structure Ordered (acc : Accumulator) : Prop where
  start_le : acc.start.location ≤ acc.stop.location
  stop_le : acc.stop.location ≤ acc.cursor.location
  idle : acc.begun = false → acc.start = acc.cursor ∧ acc.stop = acc.cursor

namespace Ordered

theorem new (p : Position) : (Accumulator.new p).Ordered :=
  ⟨Location.le_refl _, Location.le_refl _, fun _ => ⟨rfl, rfl⟩⟩

/-- The end of the stretch does not move back. -/
theorem stop_le_pass (acc : Accumulator) (l : Location) : acc.stop.location ≤ (acc.pass input l).stop.location := by
  show _ ≤ Position.location (if acc.stop.location < (acc.cursor.moveTo input l).location then _ else _)
  split
  · next h => exact Location.le_of_lt h
  · exact Location.le_refl _

theorem pass (h : acc.Ordered) (l : Location) : (acc.pass input l).Ordered :=
  ⟨Location.le_trans h.start_le (stop_le_pass acc l), Accumulator.stop_le_pass h.stop_le l, nofun⟩

/-- The stretch reaches what was taken last if nothing was taken before. -/
theorem location_stop_pass (h : acc.Ordered) (hi : acc.begun = false) (l : Location) :
    (acc.pass input l).stop.location = (acc.cursor.moveTo input l).location :=
  congrArg Position.location (stop_pass (h.idle hi).2 l)

theorem add {t : Tree} (h : acc.Ordered) (ht : t.extent.start ≤ t.extent.stop) : (acc.add input t).Ordered := by
  refine ⟨?_, (h.pass t.extent.stop).stop_le, nofun⟩
  show Position.location (if acc.begun then acc.start else acc.cursor.moveTo input t.extent.start) ≤
    (acc.pass input t.extent.stop).stop.location
  split
  · exact (h.pass t.extent.stop).start_le
  · next hb =>
    rw [h.location_stop_pass (by simpa using hb), Position.location_moveTo, Position.location_moveTo]
    exact Location.further_mono ht

theorem skip (h : acc.Ordered) (l : Location) : (acc.skip input l).Ordered := by
  unfold Accumulator.skip
  simp only
  split
  · next hb => exact ⟨h.start_le, Location.le_trans h.stop_le (Position.le_moveTo _ _), fun hn => by simp [hb] at hn⟩
  · exact ⟨Location.le_refl _, Location.le_refl _, fun _ => ⟨rfl, rfl⟩⟩

theorem start_le_cursor (h : acc.Ordered) : acc.start.location ≤ acc.cursor.location :=
  Location.le_trans h.start_le h.stop_le

end Ordered

/-! ## Results -/

@[simp] theorem results_new (p : Position) : (new p).results = #[] := rfl

@[simp] theorem results_pass (l : Location) : (acc.pass input l).results = acc.results := rfl

@[simp] theorem results_add (t : Tree) : (acc.add input t).results = acc.results.push t := rfl

@[simp] theorem results_skip (l : Location) : (acc.skip input l).results = acc.results := by
  unfold Accumulator.skip
  simp only
  split <;> rfl

theorem hollow_tree : (acc.tree input).Hollow ↔ ∀ t ∈ acc.results, t.Hollow := by
  have hmem : ∀ t, t ∈ acc.results ↔ t ∈ acc.results.toList := fun t => Array.mem_toList_iff.symm
  simp only [hmem]
  unfold Accumulator.tree
  split
  · next t ht => simp [ht]
  · exact Tree.hollow_list

theorem extent_tree : ((acc.tree input).extent) = acc.span input := by
  unfold Accumulator.tree
  split
  · simp
  · rfl

/-! ## Many at once -/

theorem foldl_add_induction {P : Accumulator → Prop} :
    ∀ {items : List Tree} {acc : Accumulator}, P acc → (∀ acc, ∀ t ∈ items, P acc → P (acc.add input t)) →
      P (items.foldl (add input) acc)
  | [], _, h, _ => h
  | t :: items, acc, h, hadd => by
    show P (items.foldl (add input) (acc.add input t))
    exact foldl_add_induction (hadd acc t List.mem_cons_self h) fun acc u hu => hadd acc u (List.mem_cons_of_mem _ hu)

theorem results_foldl_add : ∀ (items : List Tree) (acc : Accumulator),
    (items.foldl (add input) acc).results = acc.results ++ items.toArray
  | [], _ => by simp
  | t :: items, acc => by
    rw [List.foldl_cons, results_foldl_add items, results_add]
    apply Array.toList_inj.1
    simp

end Accumulator

/-! ## Runs -/

namespace Run

variable {input : List Char} {G : Ground input} {run : Run}

/-- A run with the same parts in the same setting. -/
structure Continues (run further : Run) : Prop where
  parts : further.parts = run.parts
  flatten : further.flatten = run.flatten
  setting : further.setting = run.setting
  growing : further.growing = run.growing

theorem Continues.refl (run : Run) : run.Continues run := ⟨rfl, rfl, rfl, rfl⟩

theorem Continues.trans {further last : Run} (h : run.Continues further) (h' : further.Continues last) :
    run.Continues last :=
  ⟨h'.parts.trans h.parts, h'.flatten.trans h.flatten, h'.setting.trans h.setting, h'.growing.trans h.growing⟩

/-- A complete run has its results for a result, or it is as silent as its last part, without results. -/
theorem conclude_cases (run : Run) (job : Job) : run.conclude job = .matched (run.collected.tree job.input) ∨
    ∃ why, run.silence = some why ∧ (run.collected.tree job.input).isNil = true ∧ run.conclude job = .silent why := by
  unfold conclude
  simp only
  split
  · next why hw =>
    split
    · next hnil => exact .inr ⟨why, hw, hnil, rfl⟩
    · exact .inl rfl
  · exact .inl rfl

theorem collect_induction {P : Accumulator → Prop} {t : Tree} (h : P run.collected)
    (hadd : ∀ acc, ∀ u, u = t ∨ (∃ place items, t = .list place items ∧ u ∈ items) → P acc → P (acc.add input u))
    (hpass : ∀ acc, P acc → P (acc.pass input t.extent.stop)) : P (run.collect input t) := by
  unfold collect
  split
  · next place items _ =>
    exact hpass _ (Accumulator.foldl_add_induction h fun acc u hu => hadd acc u (.inr ⟨place, items, rfl, hu⟩))
  · exact hadd _ _ (.inl rfl) h

theorem stands_collect {t : Tree} (h : run.collected.Stands G) (ht : t.Lies G.Loc) :
    (run.collect input t).Stands G := by
  refine collect_induction h (fun acc u hu hacc => hacc.add ?_) fun acc hacc => hacc.pass ht.stop
  rcases hu with rfl | ⟨place, items, rfl, hm⟩
  · exact ht
  · exact ht.item hm

theorem le_cursor_collect (t : Tree) :
    run.collected.cursor.location ≤ (run.collect input t).cursor.location :=
  collect_induction (P := fun acc => run.collected.cursor.location ≤ acc.cursor.location) (Location.le_refl _)
    (fun _ _ _ h => Location.le_trans h (Position.le_moveTo _ _))
    fun _ h => Location.le_trans h (Position.le_moveTo _ _)

theorem stop_le_cursor_collect (t : Tree) : t.extent.stop ≤ (run.collect input t).cursor.location := by
  have h : ∀ acc : Accumulator, t.extent.stop ≤ (acc.cursor.moveTo input t.extent.stop).location := fun acc => by
    rw [Position.location_moveTo]
    exact (Location.le_further _ _).2
  unfold collect
  split
  · exact h _
  · exact h _

theorem stop_collect (h : run.collected.stop = run.collected.cursor) (t : Tree) :
    (run.collect input t).stop = (run.collect input t).cursor :=
  collect_induction (P := fun acc => acc.stop = acc.cursor) h (fun _ _ _ h => Accumulator.stop_add h _)
    fun _ h => Accumulator.stop_pass h _

theorem hollow_collect {t : Tree} : (∀ u ∈ (run.collect input t).results, u.Hollow) ↔
    (∀ u ∈ run.collected.results, u.Hollow) ∧ t.Hollow := by
  unfold collect
  split
  · rw [Accumulator.results_pass, Accumulator.results_foldl_add, Tree.hollow_list]
    simp only [Array.mem_append, List.mem_toArray]
    exact ⟨fun h => ⟨fun u hu => h u (.inl hu), fun u hu => h u (.inr hu)⟩, fun h u hu => hu.elim (h.1 u) (h.2 u)⟩
  · rw [Accumulator.results_add]
    simp only [Array.mem_push]
    exact ⟨fun h => ⟨fun u hu => h u (.inl hu), h _ (.inr rfl)⟩, fun h u hu => hu.elim (h.1 u) (· ▸ h.2)⟩

end Run

end Packrat

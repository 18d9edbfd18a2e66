/-
Parsing agrees with the semantics of parsing expression grammars: where grammar and input are of the
kind that the semantics speaks of, and as long as no rule comes back to itself and the nesting stays
within its limit, an expression that is tried takes what the semantics says it takes.
-/
import Packrat.Parse.Matcher
import Packrat.Proofs.Grammar.Parts
import Packrat.Proofs.Memory.Keeping
import Packrat.Proofs.Parse.Collecting
import Packrat.Proofs.Peg.Semantics
import Packrat.Proofs.Session.Observers
import Packrat.Proofs.Session.Persistence

namespace Packrat

/-- An expression of the kinds that the semantics knows. -/
def Expr.IsPeg : Expr → Prop
  | .repetition _ _ fallback => fallback = none
  | .omission _ | .external _ => False
  | _ => True

/-- A grammar that the semantics speaks of: its patterns match beginnings, its repetitions repeat
what takes input, and nothing is skipped, left out, filled in or turned into nodes. -/
structure Grammar.IsPeg (g : Grammar) : Prop where
  kinds : ∀ e, g.Has e → e.IsPeg
  anchored : ∀ p, g.Has (.pattern p) → p.Anchored g.engine
  advancing : ∀ body bounds fallback, g.Has (.repetition body bounds fallback) →
    ∀ input, ¬ Peg g body input (some input)
  unskipped : g.skipper = none
  unoverridden : ∀ rule skipper, g.override? rule ≠ some (some skipper)
  unproduced : ∀ rule, g.production? rule = none

/-! ## Agreement -/

/-- A result from one position to another that agrees with the semantics. -/
structure Takes (job : Job) (e : Expr) (p q : Position) (t : Tree) : Prop where
  sits : q.Sits job.input
  forward : p.offset ≤ q.offset
  peg : Peg job.grammar e (p.rest job.input) (some (q.rest job.input))
  stop : t.extent.stop = q.location
  lies : t.Lies ((Ground.text job.input).upTo q.location).Loc
  /-- A result that tells nothing of the input has taken nothing of it. -/
  hollow : t.Hollow → q = p

/-- What comes of trying an expression at a position agrees with the semantics. -/
def Conforms (job : Job) (e : Expr) (p : Position) : Attempt → Prop
  | .settled (.matched t) => ∃ q, Takes job e p q t
  | .settled (.silent _) => Peg job.grammar e (p.rest job.input) (some (p.rest job.input))
  | .settled (.failed _) => Peg job.grammar e (p.rest job.input) none
  | _ => False

/-- Where an expression may be tried: nothing is skipped there. -/
structure Ready (job : Job) (setting : Setting) : Prop where
  sits : setting.position.Sits job.input
  unskipped : job.skipper? setting.skipping = none

/-! ## Leaves -/

section Leaves

variable {job : Job} {p : Position}

/-- Without carriage returns no line break has two characters. -/
theorem not_partsBreak {text more : List Char} (hcr : '\r' ∉ job.input) (hr : p.rest job.input = text ++ more) :
    ¬ PartsBreak text more := by
  refine not_partsBreak_of_not_mem fun h => hcr (List.drop_subset p.offset _ ?_)
  rw [show job.input.drop p.offset = text ++ more from hr]
  exact List.mem_append_left _ h

theorem takes_text {e : Expr} {text more : List Char} {t : Tree} (hcr : '\r' ∉ job.input)
    (hp : p.Sits job.input) (hr : p.rest job.input = text ++ more)
    (hpeg : Peg job.grammar e (p.rest job.input) (some more)) (hs : t.extent.start = p.location)
    (he : t.extent.stop = p.location.after text) (hi : t.items? = none) :
    ∃ q, Takes job e p q t := by
  obtain ⟨hq, hrest⟩ := hp.advance hr (not_partsBreak hcr hr)
  have hle := (hp.le_iff hq).2 (Nat.le_add_right _ _)
  refine ⟨_, hq, Nat.le_add_right _ _, hrest.symm ▸ hpeg, he, .intro ?_ ?_ (by simp [hi]), ?_⟩
  · rw [hs]
    exact ⟨hp.place, hle⟩
  · rw [he]
    exact ⟨hq.place, Location.le_refl _⟩
  · rintro ⟨-⟩
    simp [Tree.items?] at hi

theorem literal_conforms {text : List Char} (hcr : '\r' ∉ job.input) (hp : p.Sits job.input) :
    Conforms job (.literal text) p (.settled (literalVerdict text (p.rest job.input) p.location)) := by
  unfold literalVerdict
  split
  · next stop h =>
    obtain ⟨⟨more, hr⟩, rfl⟩ := (readLiteral_eq_ok _ _ _ _ _).1 h
    exact takes_text hcr hp hr.symm (.literal hr.symm) rfl rfl rfl
  · next failure h =>
    refine .literal_fails fun hpre => ?_
    rw [(readLiteral_eq_ok text _ _ _ _).2 ⟨hpre, rfl⟩] at h
    cases h

theorem pattern_conforms {pattern : Pattern} (ha : pattern.Anchored job.grammar.engine) (hcr : '\r' ∉ job.input) (hp : p.Sits job.input) :
    Conforms job (.pattern pattern) p (.settled (patternVerdict job.grammar.engine pattern (p.rest job.input) p.location)) := by
  unfold patternVerdict
  split
  · next groups h =>
    obtain ⟨more, hr⟩ := ha _ _ h
    exact takes_text hcr hp hr.symm (.pattern h hr.symm) rfl rfl rfl
  · next h => exact .pattern_fails h

end Leaves

/-! ## Sequences -/

/-- A run that follows the semantics of `e` from the position `p` to its cursor. -/
structure Run.Follows (job : Job) (e : Expr) (p : Position) (run : Run) : Prop where
  has : ∀ part ∈ run.parts, job.grammar.Has part
  unskipped : job.skipper? run.setting.skipping = none
  growing : run.growing = false
  done : run.done ≤ run.parts.length
  stands : run.collected.Stands ((Ground.text job.input).upTo run.collected.cursor.location)
  stop : run.collected.stop = run.collected.cursor
  forward : p.offset ≤ run.collected.cursor.offset
  hollow : (∀ t ∈ run.collected.results, t.Hollow) → run.collected.cursor = p
  rest : ∀ out, Peg job.grammar (.sequence (run.parts.drop run.done)) (run.collected.cursor.rest job.input) out →
    Peg job.grammar e (p.rest job.input) out

namespace Run.Follows

variable {job : Job} {e : Expr} {p q : Position} {run : Run} {t : Tree} {part : Expr}

theorem ready (h : run.Follows job e p) : Ready job run.here := ⟨h.stands.cursor.1, h.unskipped⟩

theorem drop_eq (hp : run.parts[run.done]? = some part) :
    run.parts.drop run.done = part :: run.parts.drop (run.done + 1) := by
  obtain ⟨hlt, rfl⟩ := List.getElem?_eq_some_iff.1 hp
  exact List.drop_eq_getElem_cons hlt

theorem cursor_collect (h : run.Follows job e p) (ht : Takes job part run.collected.cursor q t) :
    (run.collect job.input t).cursor = q ∧
      (run.collect job.input t).Stands ((Ground.text job.input).upTo q.location) := by
  have hle := (h.stands.cursor.1.le_iff ht.sits).2 ht.forward
  have hs : run.collected.Stands ((Ground.text job.input).upTo q.location) :=
    h.stands.mono (fun _ h => ⟨h.1, Location.le_trans h.2 hle⟩) fun _ h => ⟨h.1, Location.le_trans h.2 hle⟩
  have hc := stands_collect hs ht.lies
  have hstop : t.extent.stop ≤ (run.collect job.input t).cursor.location := stop_le_cursor_collect t
  rw [ht.stop] at hstop
  exact ⟨hc.cursor.1.ext ht.sits (Location.le_antisymm hc.cursor.2 hstop), hc⟩

theorem matched (h : run.Follows job e p) (hp : run.parts[run.done]? = some part)
    (ht : Takes job part run.collected.cursor q t) :
    (run.next (run.collect job.input t) none).Follows job e p := by
  obtain ⟨hc, hs⟩ := h.cursor_collect ht
  refine ⟨h.has, h.unskipped, h.growing, ?_, ?_, stop_collect h.stop t, ?_, fun hh => ?_, fun out hout => ?_⟩
  · exact (List.getElem?_eq_some_iff.1 hp).1
  · show (run.collect job.input t).Stands ((Ground.text job.input).upTo (run.collect job.input t).cursor.location)
    rw [hc]
    exact hs
  · show p.offset ≤ (run.collect job.input t).cursor.offset
    rw [hc]
    exact Nat.le_trans h.forward ht.forward
  · obtain ⟨hh, ht'⟩ := hollow_collect.1 hh
    show (run.collect job.input t).cursor = p
    rw [hc, ht.hollow ht', h.hollow hh]
  · refine h.rest out ?_
    rw [drop_eq hp]
    refine .sequence_cons ht.peg ?_
    have hout' : Peg job.grammar (.sequence (run.parts.drop (run.done + 1)))
      ((run.collect job.input t).cursor.rest job.input) out := hout
    rwa [hc] at hout'

theorem silent (h : run.Follows job e p) (hp : run.parts[run.done]? = some part) {why : Silence}
    (ht : Conforms job part run.collected.cursor (.settled (.silent why))) :
    (run.next run.collected (some why)).Follows job e p := by
  refine { h with done := (List.getElem?_eq_some_iff.1 hp).1, rest := fun out hout => h.rest out ?_ }
  rw [drop_eq hp]
  exact .sequence_cons ht hout

theorem failed (h : run.Follows job e p) (hp : run.parts[run.done]? = some part) {failure : Failure}
    (ht : Conforms job part run.collected.cursor (.settled (.failed failure))) :
    Conforms job e p (.settled (.failed failure)) := by
  refine h.rest none ?_
  rw [drop_eq hp]
  exact .sequence_fails ht

theorem conclude (h : run.Follows job e p) (hp : run.parts[run.done]? = none) :
    Conforms job e p (.settled (run.conclude job)) := by
  have hpeg : Peg job.grammar e (p.rest job.input) (some (run.collected.cursor.rest job.input)) := by
    refine h.rest _ ?_
    rw [List.drop_eq_nil_of_le (List.getElem?_eq_none_iff.1 hp)]
    exact .sequence_nil
  have ht : Takes job e p run.collected.cursor (run.collected.tree job.input) := by
    refine ⟨h.stands.cursor.1, h.forward, hpeg, ?_, h.stands.tree, fun hh => h.hollow (Accumulator.hollow_tree.1 hh)⟩
    rw [Accumulator.extent_tree]
    exact congrArg Position.location h.stop
  simp only [Run.conclude]
  split
  · split
    · next hn =>
      rw [ht.hollow (Tree.hollow_of_isNil hn)] at hpeg
      exact hpeg
    · exact ⟨_, ht⟩
  · exact ⟨_, ht⟩

end Run.Follows

/-! ## Steps -/

/-- In the stance, whatever expression of the grammar is tried agrees with the semantics. -/
def Stance.Agrees (k : Stance) (apply : Applier) : Prop :=
  ∀ e setting, k.Yields (k.job.grammar.Has e ∧ Ready k.job setting) (apply e setting)
    (Conforms k.job e setting.position)

section Steps

open Stance

variable {k : Stance} {apply : Applier} {e : Expr} {p : Position}

theorem Stance.Agrees.persists (h : k.Agrees apply) (e : Expr) (setting : Setting) :
    k.alarm.Persists (apply e setting) := fun s => (h e setting s).1

/-- Nothing is skipped. -/
theorem skipBetween_agrees (h : k.Agrees apply) {setting : Setting} {acc : Accumulator} :
    k.Yields (k.job.skipper? setting.skipping = none) (skipBetween k.job apply setting acc) (· = .ok none) := by
  unfold skipBetween
  split
  · exact .pure fun _ => rfl
  · next hs =>
    refine .void (Alarm.Persists.bind (h.persists _ _) fun a => ?_) fun hn => ?_
    · split <;> exact .pure
    · simp [hn] at hs

/-- What comes of a part takes a run on, or ends it. -/
theorem absorb_agrees (h : k.Agrees apply) {run : Run} {attempt : Attempt} :
    k.Yields (run.Follows k.job e p ∧ ∃ part, run.parts[run.done]? = some part ∧
        Conforms k.job part run.collected.cursor attempt)
      (run.absorb k.job apply attempt) fun
        | .ok further => further.Follows k.job e p ∧ further.parts = run.parts ∧ further.done = run.done + 1
        | .error attempt => Conforms k.job e p attempt := by
  unfold Run.absorb
  split
  · exact .pure fun ⟨hf, part, hp, q, ht⟩ => ⟨hf.matched hp ht, rfl, rfl⟩
  · exact .pure fun ⟨_, _, _, ht⟩ => ht.elim
  · exact .pure fun ⟨hf, part, hp, ht⟩ => ⟨hf.silent hp ht, rfl, rfl⟩
  · refine .bind ((skipBetween_agrees h).guard fun ⟨hf, _⟩ => hf.unskipped) fun skipped => ?_
    · split
      · exact .pure fun ⟨_, hn⟩ => by cases hn
      · exact .pure fun ⟨⟨hf, part, hp, ht⟩, _⟩ => hf.failed hp ht
      · exact .pure fun ⟨_, hn⟩ => by cases hn
  all_goals exact .pure fun ⟨_, _, _, ht⟩ => ht.elim

/-- Parts are tried until the run is complete or has failed. -/
theorem drive_agrees (hc : k.job.options.counting = true) (hr : ∀ c : Counts, 0 < c.reentries → k.alarm.rung c)
    (h : k.Agrees apply) : ∀ {fuel : Nat} {run : Run},
      k.Yields (run.Follows k.job e p ∧ run.parts.length < run.done + fuel) (run.drive k.job apply fuel) fun
        | .ok run => run.Follows k.job e p ∧ run.parts[run.done]? = none
        | .error attempt => Conforms k.job e p attempt := by
  intro fuel
  induction fuel with
  | zero =>
    refine .pure ?_
    rintro ⟨hf, hlt⟩
    exact absurd hf.done (by omega)
  | succ fuel ih =>
    intro run
    unfold Run.drive
    split
    · next hp => exact .pure fun hf => ⟨hf.1, hp⟩
    · next part hp =>
      refine .bind_get fun s => ?_
      split
      · exact .reentry_rings hc hr
      · refine .bind ((h part run.here).guard fun hf => ?_) fun a => ?_
        · exact ⟨hf.1.1.has _ (List.mem_of_getElem? hp), hf.1.1.ready⟩
        · refine .bind ((absorb_agrees h).guard fun hf => ⟨hf.1.1.1, part, hp, hf.2⟩) fun r => ?_
          split
          · refine ih.guard ?_
            rintro ⟨⟨⟨⟨-, hlt⟩, -⟩, -⟩, hf, hparts, hdone⟩
            refine ⟨hf, ?_⟩
            rw [hparts, hdone]
            omega
          · exact .pure And.right

theorem finish_agrees (hc : k.job.options.counting = true) (hr : ∀ c : Counts, 0 < c.reentries → k.alarm.rung c)
    (h : k.Agrees apply) {run : Run} :
    k.Yields (run.Follows k.job e p) (run.finish k.job apply) (Conforms k.job e p) := by
  refine .bind ((drive_agrees hc hr h).guard fun hf => ⟨hf, ?_⟩) fun r => ?_
  · unfold Run.fuel
    omega
  · cases r with
    | ok run =>
      refine .ite (fun hg => .void (Alarm.Persists.extend h.persists) fun ⟨_, hf, _⟩ => ?_) fun _ => ?_
      · simp [hf.growing] at hg
      · exact .pure fun ⟨_, hf, hp⟩ => hf.conclude hp
    | error attempt => exact .pure fun ⟨_, ha⟩ => ha

/-- Sequences and merges. -/
theorem trySequence_agrees (hc : k.job.options.counting = true) (hr : ∀ c : Counts, 0 < c.reentries → k.alarm.rung c)
    (h : k.Agrees apply) {parts : List Expr} {flatten : Bool} {setting : Setting}
    (he : ∀ input out, Peg k.job.grammar (.sequence parts) input out → Peg k.job.grammar e input out) :
    k.Yields ((∀ part ∈ parts, k.job.grammar.Has part) ∧ Ready k.job setting)
      (trySequence k.job apply parts flatten setting) (Conforms k.job e setting.position) :=
  (finish_agrees hc hr h).guard fun ⟨hp, hready⟩ => {
    has := hp
    unskipped := hready.unskipped
    growing := rfl
    done := Nat.zero_le _
    stands := Accumulator.stands_new ⟨hready.sits, Location.le_refl _⟩
    stop := rfl
    forward := Nat.le_refl _
    hollow := fun _ => rfl
    rest := fun _ hout => he _ _ hout }

/-- Alternatives are tried in order, and the first that holds decides. -/
theorem tryChoice_agrees (h : k.Agrees apply) {setting : Setting} : ∀ {alternatives : List Expr} {tried : Tried},
    k.Yields ((∀ part ∈ alternatives, k.job.grammar.Has part) ∧ Ready k.job setting ∧ tried.recursion = none ∧
        ∀ out, Peg k.job.grammar (.choice alternatives) (setting.rest k.job.input) out →
          Peg k.job.grammar e (setting.rest k.job.input) out)
      (tryChoice k.job apply setting alternatives tried) (Conforms k.job e setting.position) := by
  intro alternatives
  induction alternatives with
  | nil =>
    refine .pure ?_
    rintro ⟨-, -, hn, hout⟩
    unfold Tried.exhausted
    rw [hn]
    split
    · exact hout _ .choice_nil
    · next hs => cases hs
    · exact hout _ .choice_nil
  | cons alternative others ih =>
    intro tried
    unfold tryChoice
    refine .bind ((h alternative setting).guard fun hp => ⟨hp.1 _ List.mem_cons_self, hp.2.1⟩) fun a => ?_
    rcases a with (tree | why | span | failure) | suspension | error
    · rcases tried.recursion with _ | (_ | suspension)
      case some.some =>
        refine .void (Alarm.Persists.plantSeed h.persists) ?_
        rintro ⟨⟨-, -, hn, -⟩, -⟩
        cases hn
      all_goals
        refine .pure ?_
        rintro ⟨⟨-, -, -, hout⟩, q, ht⟩
        exact ⟨q, { ht with peg := hout _ (.choice_first ht.peg) }⟩
    · exact .pure fun ha => ha.1.2.2.2 _ (.choice_first ha.2)
    · exact .pure fun ha => ha.2.elim
    · refine .bind .emit fun _ => .bind (.count (fun _ => Nat.le_refl _) fun _ => Nat.le_refl _) fun _ => ?_
      refine ih.guard ?_
      rintro ⟨⟨⟨⟨hp, hready, hn, hout⟩, ha⟩, -⟩, -⟩
      refine ⟨fun part hm => hp _ (List.mem_cons_of_mem _ hm), hready, ?_, fun out ho => hout _ (.choice_next ha ho)⟩
      unfold Tried.failed
      split <;> exact hn
    · exact ih.guard fun ha => ha.2.elim
    · exact .pure fun ha => ha.2.elim

end Steps

/-! ## Repetitions -/

/-- What a grammar repeats takes input whenever it holds. -/
structure Grammar.Repeats (g : Grammar) (body : Expr) : Prop where
  has : g.Has body
  advancing : ∀ input, ¬ Peg g body input (some input)

/-- The bounds that are left when some matches are counted off. -/
def Bounds.lessBy (b : Bounds) (n : Nat) : Bounds := ⟨b.min - n, b.max.map (· - n)⟩

theorem Bounds.lessBy_zero (b : Bounds) : b.lessBy 0 = b := by
  simp [lessBy]

theorem Bounds.less_lessBy (b : Bounds) (n : Nat) : (b.lessBy n).less = b.lessBy (n + 1) := by
  cases h : b.max <;> simp [less, lessBy, h, Nat.sub_sub]

/-- Rounds that follow the semantics of `e` from the position `p` to their cursor. -/
structure Rounds.Follows (job : Job) (e body : Expr) (bounds : Bounds) (p : Position) (rounds : Rounds) : Prop where
  stands : rounds.collected.Stands ((Ground.text job.input).upTo rounds.collected.cursor.location)
  stop : rounds.collected.stop = rounds.collected.cursor
  forward : p.offset ≤ rounds.collected.cursor.offset
  counted : rounds.collected.results.size = rounds.matched
  none : rounds.matched = 0 → rounds.collected.cursor = p
  hollow : (∀ t ∈ rounds.collected.results, t.Hollow) → rounds.collected.cursor = p
  rest : ∀ out, Peg job.grammar (.repetition body (bounds.lessBy rounds.matched) .none)
    (rounds.collected.cursor.rest job.input) out → Peg job.grammar e (p.rest job.input) out

/-- Rounds that do not go on have what the semantics of `e` takes, if they are enough. -/
structure Rounds.Ended (job : Job) (e body : Expr) (bounds : Bounds) (p : Position) (rounds : Rounds) : Prop extends
    rounds.Follows job e body bounds p where
  out : Peg job.grammar e (p.rest job.input)
    (if bounds.min - rounds.matched = 0 then some (rounds.collected.cursor.rest job.input) else Option.none)

namespace Rounds.Follows

variable {job : Job} {e body : Expr} {bounds : Bounds} {p q : Position} {rounds : Rounds} {t : Tree}

theorem full (h : rounds.Follows job e body bounds p) (hm : ¬ rounds.mayGoOn bounds = true) :
    rounds.Ended job e body bounds p := by
  refine { h with out := h.rest _ (.repetition_full ?_) }
  unfold mayGoOn at hm
  cases hmax : bounds.max with
  | none => simp [hmax] at hm
  | some max =>
    have : ¬ rounds.matched < max := by simpa [hmax] using hm
    simp only [Bounds.lessBy, hmax, Option.map_some, Option.some.injEq]
    omega

theorem ended (h : rounds.Follows job e body bounds p)
    (hb : Peg job.grammar body (rounds.collected.cursor.rest job.input) Option.none) :
    rounds.Ended job e body bounds p := { h with out := h.rest _ (.repetition_ends hb) }

theorem matched (h : rounds.Follows job e body bounds p) (hm : rounds.mayGoOn bounds = true)
    (ht : Takes job body rounds.collected.cursor q t) (hq : q ≠ rounds.collected.cursor) :
    (rounds.next (rounds.collected.add job.input t)).Follows job e body bounds p ∧
      (rounds.collected.add job.input t).cursor = q := by
  have hle := (h.stands.cursor.1.le_iff ht.sits).2 ht.forward
  have hcursor : (rounds.collected.add job.input t).cursor = q := by
    rw [Accumulator.cursor_add, ht.stop, h.stands.cursor.1.moveTo ht.sits hle]
  have hs : rounds.collected.Stands ((Ground.text job.input).upTo q.location) :=
    h.stands.mono (fun _ h => ⟨h.1, Location.le_trans h.2 hle⟩) fun _ h => ⟨h.1, Location.le_trans h.2 hle⟩
  refine ⟨⟨?_, Accumulator.stop_add h.stop t, ?_, ?_, fun hz => ?_, fun hh => ?_, fun out hout => ?_⟩, hcursor⟩
  · show (rounds.collected.add job.input t).Stands ((Ground.text job.input).upTo
      (rounds.collected.add job.input t).cursor.location)
    rw [hcursor]
    exact hs.add ht.lies
  · show p.offset ≤ (rounds.collected.add job.input t).cursor.offset
    rw [hcursor]
    exact Nat.le_trans h.forward ht.forward
  · show (rounds.collected.add job.input t).results.size = rounds.matched + 1
    rw [Accumulator.results_add, Array.size_push, h.counted]
  · exact absurd hz (Nat.succ_ne_zero _)
  · exact absurd (ht.hollow (hh t (Array.mem_push.2 (.inr rfl)))) hq
  · refine h.rest out (.repetition_more (fun hmax => ?_) ht.peg ?_)
    · unfold mayGoOn at hm
      cases hb : bounds.max with
      | none => simp [Bounds.lessBy, hb] at hmax
      | some max =>
        have : rounds.matched < max := by simpa [hb] using hm
        simp only [Bounds.lessBy, hb, Option.map_some, Option.some.injEq] at hmax
        omega
    · rw [Bounds.less_lessBy]
      have hout' : Peg job.grammar (.repetition body (bounds.lessBy (rounds.matched + 1)) .none)
        ((rounds.collected.add job.input t).cursor.rest job.input) out := hout
      rwa [hcursor] at hout'

end Rounds.Follows

theorem Rounds.Ended.conclude {job : Job} {e body : Expr} {bounds : Bounds} {p : Position} {rounds : Rounds}
    (h : rounds.Ended job e body bounds p) (location : Location) :
    Conforms job e p (.settled (rounds.conclude job bounds none location)) := by
  have hout := h.out
  unfold Rounds.conclude
  split
  · next hz =>
    rw [if_pos (by omega), h.none hz.1] at hout
    exact hout
  · next hz =>
    split
    · next hlt =>
      rw [if_neg (by omega)] at hout
      exact hout
    · next hlt =>
      rw [if_pos (by omega)] at hout
      split
      · next he =>
        have : rounds.matched = 0 := by rw [← h.counted]; simpa using he
        omega
      · refine ⟨_, h.stands.cursor.1, h.forward, hout, ?_, h.stands.tree, fun hh => h.hollow (Accumulator.hollow_tree.1 hh)⟩
        rw [Accumulator.extent_tree]
        exact congrArg Position.location h.stop

section Steps

open Stance

variable {k : Stance} {apply : Applier} {e : Expr} {p : Position}

/-- Rounds go on until the bounds are reached or the body fails. -/
theorem rounds_agree (h : k.Agrees apply) {body : Expr} {bounds : Bounds} {setting : Setting} :
    ∀ {fuel : Nat} {rounds : Rounds},
      k.Yields (k.job.grammar.Repeats body ∧ k.job.skipper? setting.skipping = none ∧
          rounds.Follows k.job e body bounds p ∧ k.job.input.length < rounds.collected.cursor.offset + fuel)
        (rounds.drive k.job apply body bounds setting fuel) fun
          | .ok rounds => rounds.Ended k.job e body bounds p
          | .error _ => False := by
  intro fuel
  induction fuel with
  | zero =>
    refine .pure ?_
    rintro ⟨-, -, hf, hlt⟩
    have := hf.stands.cursor.1.offset_le
    omega
  | succ fuel ih =>
    intro rounds
    unfold Rounds.drive
    refine .ite (fun hm => .pure fun hf => hf.2.2.1.full (by simpa using hm)) fun hm => ?_
    have hm : rounds.mayGoOn bounds = true := by simpa using hm
    refine .bind ((h body (setting.moved rounds.collected.cursor)).guard fun hf =>
      ⟨hf.1.has, hf.2.2.1.stands.cursor.1, hf.2.1⟩) fun a => ?_
    rcases a with (tree | (_ | _ | _) | span | failure) | suspension | error
    · refine .ite (fun hle => .pure ?_) fun _ => ih.guard ?_
      · rintro ⟨⟨hb, -, hf, -⟩, q, ht⟩
        rw [ht.stop] at hle
        have := hf.stands.cursor.1.ext ht.sits (Location.le_antisymm ((hf.stands.cursor.1.le_iff ht.sits).2 ht.forward) hle)
        exact absurd (this ▸ ht.peg) (hb.advancing _)
      · rintro ⟨⟨hb, hs, hf, hlt⟩, q, ht⟩
        have hq : q ≠ rounds.collected.cursor := fun hq => hb.advancing _ (hq ▸ ht.peg)
        obtain ⟨hf', hcursor⟩ := hf.matched hm ht hq
        refine ⟨hb, hs, hf', ?_⟩
        show k.job.input.length < (rounds.collected.add k.job.input tree).cursor.offset + fuel
        rw [hcursor]
        have hne : q.offset ≠ rounds.collected.cursor.offset := fun ho =>
          hq (ht.sits.ext hf.stands.cursor.1 (Location.le_antisymm ((ht.sits.le_iff hf.stands.cursor.1).2 (Nat.le_of_eq ho))
            ((hf.stands.cursor.1.le_iff ht.sits).2 ht.forward)))
        have hle : rounds.collected.cursor.offset ≤ q.offset := ht.forward
        omega
    · exact .pure fun hb => absurd hb.2 (hb.1.1.advancing _)
    · exact .pure fun hb => absurd hb.2 (hb.1.1.advancing _)
    · exact .pure fun hb => absurd hb.2 (hb.1.1.advancing _)
    · exact .ite (fun _ => .pure fun ha => ha.2.elim) fun _ => ih.guard fun ha => ha.2.elim
    · refine .bind ((skipBetween_agrees h).guard fun hs => hs.1.2.1) fun skipped => ?_
      rcases skipped with error | (_ | collected)
      · refine .pure ?_
        rintro ⟨-, ⟨⟩⟩
      · exact .pure fun ha => ha.1.1.2.2.1.ended ha.1.2
      · refine ih.guard ?_
        rintro ⟨-, ⟨⟩⟩
    · exact .pure fun ha => ha.2.elim
    · exact .pure fun ha => ha.2.elim

theorem tryRepetition_agrees (h : k.Agrees apply) {body : Expr} {bounds : Bounds} {fallback : Option Tree}
    {setting : Setting} :
    k.Yields (k.job.grammar.Repeats body ∧ fallback = none ∧ Ready k.job setting)
      (tryRepetition k.job apply body bounds fallback setting)
      (Conforms k.job (.repetition body bounds fallback) setting.position) := by
  unfold tryRepetition
  refine .bind ((rounds_agree (e := .repetition body bounds none) (p := setting.position) h).guard
    fun ⟨hb, _, hready⟩ => ⟨hb, hready.unskipped, ?_, ?_⟩) fun r => ?_
  · exact {
      stands := Accumulator.stands_new ⟨hready.sits, Location.le_refl _⟩
      stop := rfl
      forward := Nat.le_refl _
      counted := rfl
      none := fun _ => rfl
      hollow := fun _ => rfl
      rest := fun out hout => by rwa [Bounds.lessBy_zero] at hout }
  · show _ < setting.position.offset + _
    unfold Job.remaining
    omega
  · cases r with
    | ok rounds =>
      refine .pure fun ⟨⟨_, hn, _⟩, hf⟩ => ?_
      subst hn
      exact hf.conclude _
    | error attempt => exact .pure fun ⟨_, hf⟩ => hf.elim

end Steps

/-! ## Predicates and rules -/

section Steps

open Stance

variable {k : Stance} {apply : Applier}

theorem ahead_conforms {job : Job} {body : Expr} {setting : Setting} {a : Attempt}
    (h : Conforms job body setting.position a) :
    Conforms job (.ahead body) setting.position (aheadAttempt job body setting a) := by
  match a, h with
  | .settled (.matched t), ⟨q, ht⟩ => exact .ahead ht.peg
  | .settled (.silent _), h => exact .ahead h
  | .settled (.failed _), h => exact .ahead_fails h

theorem notAhead_conforms {job : Job} {body : Expr} {setting : Setting} {a : Attempt}
    (h : Conforms job body setting.position a) :
    Conforms job (.notAhead body) setting.position (notAheadAttempt job body setting a) := by
  match a, h with
  | .settled (.matched t), ⟨q, ht⟩ => exact .notAhead_fails ht.peg
  | .settled (.silent _), h => exact .notAhead_fails h
  | .settled (.failed _), h => exact .notAhead h

/-- Without a production a rule has what its body has. -/
theorem wrapAttempt_conforms {job : Job} {name : String} {body : Expr} {p : Position} {a : Attempt}
    (hg : job.grammar.IsPeg) (hb : job.grammar.rule? name = some body) (h : Conforms job body p a) :
    Conforms job (.rule name) p (wrapAttempt job name a) := by
  match a, h with
  | .settled (.matched t), ⟨q, ht⟩ =>
    unfold wrapAttempt Grammar.produce
    rw [hg.unproduced]
    exact ⟨q, ht.sits, ht.forward, .rule hb ht.peg, by rw [Tree.extent_widened, ht.stop], ht.lies.widened,
      fun hh => ht.hollow (Tree.hollow_widened.1 hh)⟩
  | .settled (.silent _), h => exact .rule hb h
  | .settled (.failed _), h => exact .rule hb h

theorem tryRule_agrees (hg : k.job.grammar.IsPeg) (h : k.Agrees apply) {name : String} {setting : Setting}
    (hd : k.job.grammar.Has (.rule name) → (k.job.grammar.rule? name).isSome) :
    k.Yields (k.job.grammar.Has (.rule name) ∧ Ready k.job setting) (tryRule k.job apply name setting)
      (Conforms k.job (.rule name) setting.position) := by
  unfold tryRule
  split
  · next hn => exact .pure fun ⟨hh, _⟩ => by simpa [hn] using hd hh
  · next body hb =>
    refine .bind .emit fun _ => .bind (.count (fun _ => Nat.le_refl _) fun _ => Nat.le_refl _) fun _ => ?_
    refine .bind ((h body _).guard fun ⟨⟨⟨_, hready⟩, _⟩, _⟩ =>
      ⟨.body hb, hready.sits, Job.skippingIn_eq_none hg.unoverridden hready.unskipped⟩) fun a => ?_
    exact .bind .emit fun _ => .pure fun ⟨⟨_, ha⟩, _⟩ => wrapAttempt_conforms hg hb ha

theorem evaluate_agrees (hc : k.job.options.counting = true) (hr : ∀ c : Counts, 0 < c.reentries → k.alarm.rung c)
    (hg : k.job.grammar.IsPeg) (hd : ∀ name, k.job.grammar.Has (.rule name) → (k.job.grammar.rule? name).isSome)
    (hcr : '\r' ∉ k.job.input) (h : k.Agrees apply) : k.Agrees (evaluate k.job apply) := by
  intro e setting
  -- what the semantics does not know is not in the grammar, so the guard excludes it
  cases e with
  | literal text => exact .pure fun ⟨_, hready⟩ => literal_conforms hcr hready.sits
  | pattern pattern => exact .pure fun ⟨hh, hready⟩ => pattern_conforms (hg.anchored _ hh) hcr hready.sits
  | external key => exact .pure fun ⟨hh, _⟩ => (hg.kinds _ hh).elim
  | rule name => exact tryRule_agrees hg h (hd name)
  | sequence parts =>
    exact (trySequence_agrees hc hr h fun _ _ => id).guard fun ⟨hh, hready⟩ => ⟨fun _ hp => hh.part hp, hready⟩
  | merge parts =>
    exact (trySequence_agrees hc hr h fun _ _ => .merge).guard fun ⟨hh, hready⟩ => ⟨fun _ hp => hh.part hp, hready⟩
  | choice alternatives =>
    exact (tryChoice_agrees h).guard fun ⟨hh, hready⟩ => ⟨fun _ hp => hh.part hp, hready, rfl, fun _ => id⟩
  | repetition body bounds fallback =>
    exact (tryRepetition_agrees h).guard fun ⟨hh, hready⟩ =>
      ⟨⟨hh.part (by simp [Expr.parts]), hg.advancing _ _ _ hh⟩, hg.kinds _ hh, hready⟩
  | ahead body =>
    refine .bind ((h body setting).guard fun ⟨hh, hready⟩ => ⟨hh.part (by simp [Expr.parts]), hready⟩) fun a => ?_
    exact .pure fun ⟨_, ha⟩ => ahead_conforms ha
  | notAhead body =>
    refine .bind ((h body setting).guard fun ⟨hh, hready⟩ => ⟨hh.part (by simp [Expr.parts]), hready⟩) fun a => ?_
    exact .pure fun ⟨_, ha⟩ => notAhead_conforms ha
  | omission body =>
    exact .void (Alarm.Persists.bind (h.persists _ _) fun _ => .pure) fun ⟨hh, _⟩ => hg.kinds _ hh

end Steps

/-! ## Parses -/

/-- Rings when the nesting reaches its limit or a rule comes back to itself. -/
def Alarm.strict (limit : Nat) : Alarm where
  rung c := limit ≤ c.deepest ∨ 0 < c.reentries
  kept hd hr := Or.imp (Nat.le_trans · hd) (Nat.lt_of_lt_of_le · hr)

/-- A remembered verdict agrees with the semantics wherever the question is asked. -/
def Answers (job : Job) (q : Question) (v : Verdict) : Prop :=
  ∀ p : Position, p.Sits job.input → p.location = q.location → Conforms job q.expr p (.settled v)

/-- The stance of a parse whose remembered verdicts agree with the semantics. -/
def Job.strictStance (job : Job) (mark : Mark) (depth : Nat) : Stance :=
  ⟨job, .strict job.options.depthLimit, Memory.Keeps (Answers job), mark, depth⟩

theorem Conforms.awaiting {job : Job} {e : Expr} {p : Position} {a : Attempt} (h : Conforms job e p a) (q : Question) :
    a.awaiting job q = a := by
  match a, h with
  | .settled v, _ => rfl

theorem applyWithin_agrees {job : Job} (hc : job.options.counting = true) (hg : job.grammar.IsPeg)
    (hd : ∀ name, job.grammar.Has (.rule name) → (job.grammar.rule? name).isSome) (hcr : '\r' ∉ job.input) :
    ∀ (levels : Nat) (mark : Mark) (depth : Nat), depth + levels = job.options.depthLimit →
      (job.strictStance mark depth).Agrees (applyWithin job levels)
  | 0, mark, depth, hl => fun _ _ => .too_deep hc fun c h => .inl (hl ▸ h)
  | levels + 1, mark, depth, hl => by
    intro e setting
    have hr : ∀ mark depth (c : Counts), 0 < c.reentries → (job.strictStance mark depth).alarm.rung c :=
      fun _ _ _ => .inr
    refine .remembering (Q := Conforms job e setting.position) (fun ⟨hh, hready⟩ _ mem v hmem hv => ?_)
      (.reentry_rings hc (hr _ _)) ?_ (fun ⟨_, hready⟩ v mem ha hmem => hmem.insert fun p hp hpl => ?_)
      fun _ a ha => (ha.awaiting (.of e setting)).symm ▸ ha
    · obtain ⟨q, hq, hql, hqe, -⟩ := hmem.find hv
      have hplain : e.Throughout (·.fallback? = none) := hh.throughout fun e he => by
        have := hg.kinds e he
        cases e <;> first | rfl | exact this
      have he : e = q.expr := Expr.eq_of_same hplain hqe
      rw [he]
      exact hq _ hready.sits hql.symm
    · have := applyWithin_agrees hc hg hd hcr levels (mark.inside e.reference? setting.location) (depth + 1) (by omega)
      exact (evaluate_agrees hc (hr _ _) hg hd hcr this e setting).guard fun h => h.1
    · rw [hp.ext hready.sits hpl]
      exact ha

/-- What was counted when a grammar parsed a text, counts being kept. -/
def Grammar.counts (g : Grammar) (options : Options) (externals : Externals) (input : List Char) : Counts :=
  (g.parse { options with counting := true } externals input).counts

/-- Whether verdicts are remembered or not: as long as no rule comes back to itself and the nesting
stays within its limit, parsing succeeds exactly when the semantics does, and its result ends where
the text that the semantics takes ends. -/
theorem Grammar.parse_conforms {g : Grammar} {definitions : List Definition} {engine : Regex.Engine}
    (hb : ofDefinitions definitions engine = .ok g) (hg : g.IsPeg) {options : Options} {externals : Externals}
    {input : List Char} (hcr : '\r' ∉ input) (hd : (g.counts options externals input).deepest < options.depthLimit)
    (hr : (g.counts options externals input).reentries = 0) :
    ((∃ t, (g.parse options externals input).result = .ok t) ↔ ∃ rest, Peg g (.rule g.start) input (some rest)) ∧
      ∀ t, (g.parse options externals input).result = .ok t → ∃ taken rest, input = taken ++ rest ∧
        Peg g (.rule g.start) input (some rest) ∧ t.extent.stop = Location.origin.after taken := by
  rw [← g.parse_observed options externals input true options.tracing]
  let job := Job.new g (.rule g.start) { options with counting := true } externals input
  have h := @applyWithin_agrees job rfl hg (fun _ => defined_of_built hb) hcr options.depthLimit none 0
    (Nat.zero_add _) (.rule g.start) .start .start
  have hfits : (job.strictStance none 0).Fits .start := ⟨Memory.keeps_empty, rfl, rfl, fun _ => Nat.le_refl _⟩
  have hrest : Position.origin.rest input = input := rfl
  rcases h.2 ⟨.start, Position.sits_origin, hg.unskipped⟩ hfits with hrung | ⟨ha, -⟩
  · rcases hrung with hrung | hrung
    · exact absurd hd (Nat.not_lt.2 hrung)
    · exact absurd hr (Nat.ne_of_gt hrung)
  · show ((∃ t, Job.resultOf _ ((apply job (.rule g.start) .start).on .start).1 = .ok t) ↔ _) ∧
      ∀ t, Job.resultOf _ ((apply job (.rule g.start) .start).on .start).1 = .ok t → _
    have ha : Conforms job (.rule g.start) .origin ((apply job (.rule g.start) .start).on .start).1 := ha
    generalize ((apply job (.rule g.start) .start).on .start).1 = a at ha
    match a, ha with
    | .settled (.matched t), ⟨q, ht⟩ =>
      obtain ⟨before, hi, -, hl, -⟩ := ht.sits
      refine ⟨⟨fun _ => ⟨_, ht.peg⟩, fun _ => ⟨t, rfl⟩⟩, fun u hu => ?_⟩
      cases hu
      exact ⟨before, _, hi, ht.peg, ht.stop.trans hl⟩
    | .settled (.silent _), hp =>
      refine ⟨⟨fun _ => ⟨_, hp⟩, fun _ => ⟨_, rfl⟩⟩, fun u hu => ?_⟩
      cases hu
      exact ⟨[], input, rfl, hp, rfl⟩
    | .settled (.failed _), hp =>
      refine ⟨⟨fun ⟨t, ht⟩ => ?_, fun ⟨rest, hr⟩ => ?_⟩, fun t ht => ?_⟩
      · cases ht
      · cases hp.deterministic hr
      · cases ht

/-! ## An instance -/

/-- Any number of letters, `a` or `b`, and then no `b`. -/
def Grammar.letters : List Definition := [
  .rule "letters" (.sequence [.repetition (.choice [.literal ['a'], .rule "b"]) ⟨0, none⟩ none, .notAhead (.rule "b")]),
  .rule "b" (.literal ['b']),
  .start "letters"]

/-- The grammar of the definitions above. -/
def Grammar.ofLetters : Grammar where
  start := "letters"
  rules := [
    ("letters", .sequence [.repetition (.choice [.literal ['a'], .rule "b"]) ⟨0, none⟩ none, .notAhead (.rule "b")]),
    ("b", .literal ['b'])]
  skipper := none
  overrides := []
  productions := []
  kinds := .empty

theorem Grammar.has_ofLetters {e : Expr} (h : ofLetters.Has e) :
    e = .rule "letters" ∨ e = .rule "b" ∨ e = .literal ['a'] ∨ e = .literal ['b'] ∨
      e = .choice [.literal ['a'], .rule "b"] ∨
      e = .repetition (.choice [.literal ['a'], .rule "b"]) ⟨0, none⟩ none ∨ e = .notAhead (.rule "b") ∨
      e = .sequence [.repetition (.choice [.literal ['a'], .rule "b"]) ⟨0, none⟩ none, .notAhead (.rule "b")] := by
  induction h with
  | start => exact .inl rfl
  | @body name body hb =>
    simp only [rule?, ofLetters, List.lookup_cons] at hb
    split at hb
    · cases hb; simp
    · split at hb
      · cases hb; simp
      · cases hb
  | skipper hs => cases hs
  | override ho => cases ho
  | part _ hp ih =>
    rcases ih with rfl | rfl | rfl | rfl | rfl | rfl | rfl | rfl <;>
      simp only [Expr.parts, List.mem_cons, List.not_mem_nil, or_false] at hp
    · rcases hp with rfl | rfl <;> simp
    · subst hp; simp
    · subst hp; simp
    · rcases hp with rfl | rfl <;> simp

theorem Grammar.isPeg_ofLetters : ofLetters.IsPeg where
  kinds e he := by
    rcases has_ofLetters he with rfl | rfl | rfl | rfl | rfl | rfl | rfl | rfl <;> first | rfl | trivial
  anchored p hp := by simpa using has_ofLetters hp
  advancing body bounds fallback hr input hp := by
    have hb : body = .choice [.literal ['a'], .rule "b"] := by
      have := has_ofLetters hr
      simp only [reduceCtorEq, Expr.repetition.injEq, false_or, or_false] at this
      exact this.1
    subst hb
    have no_letter : ∀ c : Char, ¬ Peg ofLetters (.literal [c]) input (some input) := by
      rintro c ⟨he⟩
      have := congrArg List.length he
      simp at this
    cases hp with
    | choice_first h => exact no_letter _ h
    | choice_next _ h =>
      cases h with
      | choice_first h =>
        cases h with
        | rule hb h =>
          cases hb
          exact no_letter _ h
      | choice_next _ h => cases h
  unskipped := rfl
  unoverridden _ _ h := nomatch h
  unproduced _ := rfl

theorem Grammar.parse_conforms_letters :
    ∃ t, (ofLetters.parse .standard .nothing ['a', 'b', 'c']).result = .ok t ∧
      ∃ taken rest, ['a', 'b', 'c'] = taken ++ rest ∧
        Peg ofLetters (.rule "letters") ['a', 'b', 'c'] (some rest) ∧ t.extent.stop = Location.origin.after taken := by
  have h := @parse_conforms ofLetters letters _ rfl isPeg_ofLetters .standard .nothing
    ['a', 'b', 'c'] (by decide) (by decide +kernel) (by decide +kernel)
  have hok : (ofLetters.parse .standard .nothing ['a', 'b', 'c']).result.isOk = true := by
    decide +kernel
  cases hr : (ofLetters.parse .standard .nothing ['a', 'b', 'c']).result with
  | ok t => exact ⟨t, rfl, h.2 t hr⟩
  | error refusal => simp [hr, Except.isOk, Except.toBool] at hok

end Packrat

/-
What parsing accepts is derivable, if left recursion is at home and grounded. Two things can come of
an expression: a result that covers derivable text, or, in the body of the rule entered last, a
suspension of a sequence that begins with that rule. Whatever seed the sequence is resumed with is a
result of the rule, and each round of growth derives the rule once more.
-/
import Packrat.Parse.Matcher
import Packrat.Proofs.Recursion.Derivation

namespace Packrat

open Stance

/-! ## What comes of an expression -/

/-- A result that ends where the derivable text ends. -/
structure Spells (job : Job) (e : Expr) (p q : Position) (t : Tree) : Prop where
  sits : q.Sits job.input
  derived : Derived job e p q
  stop : t.extent.stop = q.location

/-- A definite answer whose result, if it has one, covers derivable text. -/
def Sound (job : Job) (e : Expr) (p : Position) : Attempt → Prop
  | .settled (.matched t) => ∃ q, Spells job e p q t
  | .settled (.failed _) | .broken _ => True
  | _ => False

/-- The rule entered last was entered here or before, and if it was here, then trying the expression
cannot come back to it. -/
def Calm (job : Job) (mark : Mark) (e : Expr) (location : Location) : Prop :=
  ∀ r l, mark = some (r, l) → l ≤ location ∧ (l = location → ¬ Opens (Derives job.grammar · []) none r e)

/-- The expression belongs to the body of the rule entered last at the location, where the rule is
at home. -/
structure Inner (job : Job) (mark : Mark) (r : String) (e : Expr) (location : Location) : Prop where
  entered : mark = some (r, location)
  homed : Homed (Derives job.grammar · []) none r e
  body : ∀ text, Derives job.grammar e text → Derives job.grammar (.rule r) text

/-- A sequence of the rule and further parts, set aside at its beginning, with what is to be
remembered once it is complete. -/
structure Suspended (job : Job) (r : String) (e : Expr) (p : Position) (suspension : Suspension) (rest : List Expr)
    (setting : Setting) (questions : List Question) : Prop where
  shape : suspension = .sequence { Run.new (.rule r :: rest) false setting 0 with growing := true, needsSeed := true } ::
    questions.map .memory
  position : setting.position = p
  unskipped : job.skipper? setting.skipping = none
  has : ∀ part ∈ Expr.rule r :: rest, job.grammar.Has part
  calm : Derives job.grammar (.rule r) [] → ¬ Opens (Derives job.grammar · []) none r (.sequence rest)
  body : ∀ text, Derives job.grammar (.sequence (.rule r :: rest)) text → Derives job.grammar (.rule r) text
  covers : ∀ text, Derives job.grammar (.sequence (.rule r :: rest)) text → Derives job.grammar e text
  questions : ∀ q ∈ questions, q.location = p.location ∧
    ∀ text, Derives job.grammar (.sequence (.rule r :: rest)) text → Derives job.grammar q.expr text

/-- A recursion signal of an expression in the body of the rule entered last. -/
def Signal (job : Job) (r : String) (e : Expr) (p : Position) : Attempt → Prop
  | .recursion none => True
  | .recursion (some suspension) => ∃ rest setting questions, Suspended job r e p suspension rest setting questions
  | _ => False

/-- What may come of trying an expression. -/
def Outcome (job : Job) (mark : Mark) (e : Expr) (p : Position) (a : Attempt) : Prop :=
  Sound job e p a ∨ ∃ r, mark = some (r, p.location) ∧ ¬ Grounded (Derives job.grammar · []) none r e ∧ Signal job r e p a

variable {job : Job} {e e' : Expr} {p q : Position} {a : Attempt}

theorem Sound.imp (h : Sound job e p a) (f : ∀ text, Derives job.grammar e text → Derives job.grammar e' text) :
    Sound job e' p a := by
  match a, h with
  | .settled (.matched t), ⟨q, ht⟩ => exact ⟨q, { ht with derived := ht.derived.imp f }⟩
  | .settled (.failed _), _ => trivial
  | .broken _, _ => trivial

theorem Signal.imp {r : String} (h : Signal job r e p a)
    (f : ∀ text, Derives job.grammar e text → Derives job.grammar e' text) : Signal job r e' p a := by
  match a, h with
  | .recursion none, _ => trivial
  | .recursion (some _), ⟨rest, setting, qs, hs⟩ =>
    exact ⟨rest, setting, qs, { hs with covers := fun text hd => f _ (hs.covers text hd) }⟩

theorem Outcome.of_calm {mark : Mark} (h : Outcome job mark e p a) (hc : Calm job mark e p.location) : Sound job e p a := by
  rcases h with h | ⟨r, hm, hg, -⟩
  · exact h
  · exact absurd (.other ((hc r _ hm).2 rfl)) hg

/-! ## Applications -/

/-- A remembered verdict covers derivable text wherever the question is asked. -/
def Vouches (job : Job) (q : Question) (v : Verdict) : Prop :=
  ∀ p : Position, p.Sits job.input → p.location = q.location → Sound job q.expr p (.settled v)

/-- The stance of a parse whose remembered verdicts cover derivable text. -/
def Job.plainStance (job : Job) (mark : Mark) (depth : Nat) : Stance :=
  ⟨job, .none, Memory.Keeps (Vouches job), mark, depth⟩

/-- Where an expression may be tried. -/
structure Admits (job : Job) (mark : Mark) (e : Expr) (setting : Setting) : Prop where
  has : job.grammar.Has e
  sits : setting.position.Sits job.input
  unskipped : job.skipper? setting.skipping = none
  home : Calm job mark e setting.location ∨ ∃ r, Inner job mark r e setting.location

/-- In the stance, what comes of trying an expression covers derivable text or is a signal. -/
def Job.Derives (job : Job) (mark : Mark) (depth : Nat) (apply : Applier) : Prop :=
  ∀ e setting, Admits job mark e setting →
    (job.plainStance mark depth).Yields True (apply e setting) (Outcome job mark e setting.position)

/-! ## Runs -/

/-- A failure or an error. -/
def Attempt.Quits : Attempt → Prop
  | .settled (.failed _) | .broken _ => True
  | _ => False

theorem Attempt.Quits.sound (h : a.Quits) : Sound job e p a := by
  match a, h with
  | .settled (.failed _), _ => trivial
  | .broken _, _ => trivial

/-- A run like `origin` that has read text derivable from the first of the parts `whole`, from the
position `o` to its cursor. -/
structure Run.Reads (job : Job) (run origin : Run) (whole : List Expr) (o : Position) : Prop where
  parts : run.parts = origin.parts
  flatten : run.flatten = false
  setting : run.setting = origin.setting
  growing : run.growing = origin.growing
  silence : run.silence = none
  sits : run.collected.cursor.Sits job.input
  stop : run.collected.stop = run.collected.cursor
  read : ∃ before, whole = before ++ run.parts.drop run.done ∧ Derived job (.sequence before) o run.collected.cursor

/-- Each part is calm where the parts before it have led. -/
def CalmAlong (job : Job) (mark : Mark) (whole : List Expr) (o : Position) : Prop :=
  ∀ before part after q, whole = before ++ part :: after → q.Sits job.input →
    Derived job (.sequence before) o q → Calm job mark part q.location

section Runs

variable {origin run : Run} {whole : List Expr} {o : Position} {mark : Mark} {depth : Nat} {apply : Applier}

theorem Run.Reads.next (h : run.Reads job origin whole o) {part : Expr} {t : Tree} (hp : run.parts[run.done]? = some part)
    (ht : Spells job part run.collected.cursor q t) :
    (run.next (run.collect job.input t) none).Reads job origin whole o := by
  have hcollect : run.collect job.input t = run.collected.add job.input t := by
    unfold Run.collect
    rw [h.flatten]
  have hcursor : (run.collected.add job.input t).cursor = q := by
    rw [Accumulator.cursor_add, ht.stop, h.sits.moveTo ht.sits (ht.derived.le h.sits ht.sits)]
  obtain ⟨before, hw, hd⟩ := h.read
  obtain ⟨hlt, rfl⟩ := List.getElem?_eq_some_iff.1 hp
  refine ⟨h.parts, h.flatten, h.setting, h.growing, rfl, ?_, ?_, before ++ [run.parts[run.done]], ?_, ?_⟩
  · show (run.collect job.input t).cursor.Sits job.input
    rw [hcollect, hcursor]
    exact ht.sits
  · show (run.collect job.input t).stop = (run.collect job.input t).cursor
    rw [hcollect]
    exact Accumulator.stop_add h.stop t
  · rw [hw, List.drop_eq_getElem_cons hlt, List.append_assoc]
    rfl
  · show Derived job _ o (run.collect job.input t).cursor
    rw [hcollect, hcursor]
    exact hd.snoc ht.derived

/-- A complete run spells out all parts. -/
theorem Run.Reads.conclude (h : run.Reads job origin whole o) (hp : run.parts[run.done]? = none) :
    run.conclude job = .matched (run.collected.tree job.input) ∧
      Spells job (.sequence whole) o run.collected.cursor (run.collected.tree job.input) := by
  obtain ⟨before, hw, hd⟩ := h.read
  rw [List.drop_eq_nil_of_le (List.getElem?_eq_none_iff.1 hp), List.append_nil] at hw
  refine ⟨by simp only [Run.conclude, h.silence], h.sits, hw ▸ hd, ?_⟩
  rw [Accumulator.extent_tree]
  exact congrArg Position.location h.stop

theorem absorb_sound (hs : job.skipper? run.setting.skipping = none) (h : run.Reads job origin whole o) {part : Expr}
    (hp : run.parts[run.done]? = some part) (ha : Sound job part run.collected.cursor a) :
    (job.plainStance mark depth).Yields True (run.absorb job apply a) fun
      | .ok further => further.Reads job origin whole o ∧ further.done = run.done + 1
      | .error attempt => attempt.Quits := by
  match a, ha with
  | .settled (.matched t), ⟨q, ht⟩ => exact .pure fun _ => ⟨h.next hp ht, rfl⟩
  | .settled (.failed failure), _ =>
    unfold Run.absorb skipBetween
    rw [hs]
    exact .pure fun _ => trivial
  | .broken _, _ => exact .pure fun _ => trivial

/-- Parts are tried one after the other, and what they read is derivable from them. -/
theorem drive_sound (h : job.Derives mark depth apply) (hhas : ∀ part ∈ origin.parts, job.grammar.Has part)
    (hs : job.skipper? origin.setting.skipping = none) (hcalm : CalmAlong job mark whole o) :
    ∀ {fuel : Nat} {run : Run}, run.Reads job origin whole o →
      (job.plainStance mark depth).Yields True (run.drive job apply fuel) fun
        | .ok run => run.Reads job origin whole o ∧ run.parts[run.done]? = none
        | .error attempt => attempt.Quits := by
  intro fuel
  induction fuel with
  | zero => exact fun _ => .pure fun _ => trivial
  | succ fuel ih =>
    intro run hr
    unfold Run.drive
    split
    · next hp => exact .pure fun _ => ⟨hr, hp⟩
    · next part hp =>
      have hcalm' : Calm job mark part run.collected.cursor.location := by
        obtain ⟨before, hw, hd⟩ := hr.read
        obtain ⟨hlt, rfl⟩ := List.getElem?_eq_some_iff.1 hp
        exact hcalm before _ _ _ (by rw [hw, List.drop_eq_getElem_cons hlt]) hr.sits hd
      have hs' : job.skipper? run.setting.skipping = none := by rw [hr.setting, hs]
      have hadmits : Admits job mark part run.here :=
        ⟨hhas _ (hr.parts ▸ List.mem_of_getElem? hp), hr.sits, hs', .inl hcalm'⟩
      refine .next_get (fun _ => id) fun s hfits => ?_
      refine .ite (fun hre => ?_) fun _ => ?_
      · -- only a reference to the rule entered last could reenter it, but such a part is not calm
        obtain ⟨-, hre⟩ := hre
        cases part with
        | rule name =>
          have hm : mark = some (name, run.collected.cursor.location) := by
            have : s.entered = some (name, run.here.location) := by simpa [Session.reenters] using hre
            exact hfits.mark.symm.trans this
          exact absurd .rule ((hcalm' name _ hm).2 rfl)
        | _ => simp [Session.reenters] at hre
      · refine .next (fun _ => id) (h part run.here hadmits) fun a ha => ?_
        refine .next (fun _ => id) (absorb_sound hs' hr hp (ha.of_calm hcalm')) fun r hr' => ?_
        cases r with
        | ok further => exact ih hr'.1
        | error attempt => exact .pure fun _ => hr'

/-- The parts of a calm sequence are calm. -/
theorem calmAlong_of_calm {parts : List Expr} (hp : p.Sits job.input) (hc : Calm job mark (.sequence parts) p.location) :
    CalmAlong job mark parts p := by
  intro before part after q hparts hq hd r l hm
  obtain ⟨hle, hopen⟩ := hc r l hm
  have hpq := hd.le hp hq
  refine ⟨Location.le_trans hle hpq, fun hl ho => ?_⟩
  subst hl
  have hl := Location.le_antisymm hle hpq
  exact hopen hl (.chain (congrArg some hparts) ((hd.nothing hl hp hq).of_sequence_nil) ho)

end Runs

/-! ## Suspended sequences -/

section Suspensions

variable {r : String} {rest : List Expr} {setting : Setting} {questions : List Question} {suspension : Suspension}
  {mark : Mark} {depth : Nat} {apply : Applier} {t : Tree}

namespace Suspended

/-- Behind a seed, the other parts are calm. -/
theorem calmAlong (h : Suspended job r e p suspension rest setting questions) (hp : p.Sits job.input)
    (hm : mark = some (r, p.location)) (hq : q.Sits job.input) (hd : Derived job (.rule r) p q) :
    CalmAlong job mark rest q := by
  intro before part after q' hparts hq' hd' r' l hm'
  rw [hm] at hm'
  cases hm'
  have hle := Location.le_trans (hd.le hp hq) (hd'.le hq hq')
  refine ⟨hle, fun hl ho => ?_⟩
  have hqp : q.location = p.location :=
    Location.le_antisymm (hl ▸ hd'.le hq hq') (hd.le hp hq)
  refine h.calm (hd.nothing hqp hp hq) (.chain (congrArg some hparts) ?_ ho)
  exact (hd'.nothing (hl.symm.trans hqp.symm) hq hq').of_sequence_nil

end Suspended

/-- The other parts, tried once more, read derivable text or quit. -/
theorem tail_sound (h : job.Derives mark depth apply) {run : Run} (hhas : ∀ part ∈ run.parts, job.grammar.Has part)
    (hf : run.flatten = false) (hs : job.skipper? run.setting.skipping = none)
    (hparts : run.parts = .rule r :: rest) (hq : q.Sits job.input) (hcalm : CalmAlong job mark rest q) :
    (job.plainStance mark depth).Yields True (run.tail job apply q) fun a =>
      a.Quits ∨ ∃ o more, a = .settled (.matched more) ∧ Spells job (.sequence rest) q o more := by
  let further := Run.new run.parts run.flatten (run.setting.moved q) 1
  have hreads : further.Reads job further rest q :=
    ⟨rfl, hf, rfl, rfl, rfl, hq, rfl, [], by simp [further, Run.new, hparts], .nil⟩
  have hhas' : ∀ part ∈ further.parts, job.grammar.Has part := hhas
  refine .next (fun _ => id) (drive_sound h hhas' hs hcalm hreads) fun r hr => ?_
  cases r with
  | ok further =>
    obtain ⟨hc, ht⟩ := hr.1.conclude hr.2
    refine .pure fun _ => .inr ⟨_, _, ?_, ht⟩
    rw [hc]
  | error attempt => exact .pure fun _ => .inl hr

/-- Every round of growth derives the sequence, and so the rule, once more. -/
theorem extend_sound (h : job.Derives mark depth apply) {run : Run} (hhas : ∀ part ∈ run.parts, job.grammar.Has part)
    (hf : run.flatten = false) (hs : job.skipper? run.setting.skipping = none)
    (hparts : run.parts = .rule r :: rest) (hp : p.Sits job.input)
    (hcalm : ∀ q, q.Sits job.input → Derived job (.rule r) p q → CalmAlong job mark rest q)
    (hbody : ∀ text, Derives job.grammar (.sequence (.rule r :: rest)) text → Derives job.grammar (.rule r) text) :
    ∀ {fuel : Nat} {cursor : Position} {t : Tree}, Spells job (.sequence (.rule r :: rest)) p cursor t →
      (job.plainStance mark depth).Yields True (run.extend job apply fuel cursor t)
        (Sound job (.sequence (.rule r :: rest)) p)
  | 0, cursor, t, ht => .pure fun _ => ⟨_, ht⟩
  | fuel + 1, cursor, t, ht => by
    unfold Run.extend
    refine .ite (fun _ => .pure fun _ => ⟨_, ht⟩) fun _ => ?_
    have hr := ht.derived.imp hbody
    refine .next (fun _ => id) (tail_sound h hhas hf hs hparts ht.sits (hcalm _ ht.sits hr)) fun a ha => ?_
    rcases ha with ha | ⟨o, more, rfl, hmore⟩
    · match a, ha with
      | .settled (.failed _), _ => exact .pure fun _ => ⟨_, ht⟩
      | .broken _, _ => exact .pure fun _ => trivial
    · refine .ite (fun _ => .pure fun _ => ⟨_, ht⟩) fun _ => ?_
      have hmove : cursor.moveTo job.input more.extent.stop = o := by
        rw [hmore.stop, ht.sits.moveTo hmore.sits (hmore.derived.le ht.sits hmore.sits)]
      refine .bind (.count (fun _ => Nat.le_refl _) fun _ => Nat.le_refl _) fun _ => .bind .note fun _ => ?_
      refine .guard (extend_sound h hhas hf hs hparts hp hcalm hbody ?_) fun _ => trivial
      rw [hmove]
      exact ⟨hmore.sits, (hr.imp fun _ => Derives.single).append hmore.derived, rfl⟩

theorem Sound.awaiting (h : Sound job e p a) (q : Question) : a.awaiting job q = a := by
  match a, h with
  | .settled v, _ => rfl
  | .broken _, _ => rfl

/-- What comes of the sequence is remembered for all expressions that waited for it. -/
theorem remember_sound (hp : p.Sits job.input) : ∀ {questions : List Question},
    (∀ q ∈ questions, q.location = p.location ∧ ∀ text, Derives job.grammar e text → Derives job.grammar q.expr text) →
      Sound job e p a → (job.plainStance mark depth).Yields True
        (Suspension.resume job apply (questions.map .memory) a) (Sound job e p)
  | [], _, ha => .pure fun _ => ha
  | q :: questions, hq, ha => by
    rw [List.map_cons, Suspension.resume]
    refine .next (fun _ => id) (Q := (· = a))
      (.remember (fun _ v mem hv hmem => hmem.insert fun p' hp' hl => ?_) fun _ => ha.awaiting q) fun b hb => ?_
    · obtain ⟨hql, hqe⟩ := hq q List.mem_cons_self
      rw [hp'.ext hp (hl.trans hql), ← hv]
      exact ha.imp hqe
    · rw [hb]
      have := remember_sound hp (fun q hm => hq q (List.mem_cons_of_mem _ hm)) ha
      match a, ha with
      | .settled _, _ => exact this
      | .broken _, _ => exact this

/-- The seed counts as the first part, and the other parts are read behind it. -/
theorem resumeRun_sound (h : job.Derives mark depth apply) (hu : ∀ rule, job.grammar.production? rule = none)
    (hp : p.Sits job.input) (hm : mark = some (r, p.location))
    (hsusp : Suspended job r e p suspension rest setting questions) (ht : Spells job (.rule r) p q t) :
    (job.plainStance mark depth).Yields True
      (({ Run.new (.rule r :: rest) false setting 0 with growing := true, needsSeed := true } : Run).resume job apply
        (.settled (.matched t))) (Sound job (.sequence (.rule r :: rest)) p) := by
  obtain ⟨u, hseed, hu⟩ : ∃ u, ({ Run.new (.rule r :: rest) false setting 0 with
      growing := true, needsSeed := true } : Run).seeded job (.settled (.matched t)) = .settled (.matched u) ∧
        Spells job (.rule r) p q u := by
    unfold Run.seeded
    simp only [Run.new]
    split
    · refine ⟨t.widened, ?_, ht.sits, ht.derived, by rw [Tree.extent_widened, ht.stop]⟩
      simp only [Grammar.produce, hu]
    · exact ⟨t, rfl, ht⟩
  let begun : Run := ({ Run.new (.rule r :: rest) false setting 0 with growing := true } : Run).next
    ((Accumulator.new setting.position).add job.input u) none
  have hcursor : begun.collected.cursor = q := by
    show setting.position.moveTo job.input u.extent.stop = q
    rw [hsusp.position, hu.stop, hp.moveTo hu.sits (hu.derived.le hp hu.sits)]
  have hreads : begun.Reads job begun rest q :=
    ⟨rfl, rfl, rfl, rfl, rfl, hcursor ▸ hu.sits, Accumulator.stop_add rfl u, [], rfl, hcursor ▸ .nil⟩
  unfold Run.resume
  simp only [if_true, hseed]
  refine .next (fun _ => id) (Q := (· = .ok begun)) (.pure fun _ => rfl) fun b hb => ?_
  subst hb
  have hcalm : ∀ o, o.Sits job.input → Derived job (.rule r) p o → CalmAlong job mark rest o := fun o ho hd =>
    hsusp.calmAlong hp hm ho hd
  have hhas : ∀ part ∈ begun.parts, job.grammar.Has part := hsusp.has
  have hs : job.skipper? begun.setting.skipping = none := hsusp.unskipped
  refine .next (fun _ => id) (drive_sound h hhas hs (hcalm q hu.sits hu.derived) hreads) fun b hb => ?_
  cases b with
  | error attempt => exact .pure fun _ => Attempt.Quits.sound hb
  | ok run =>
    obtain ⟨-, hspells⟩ := hb.1.conclude hb.2
    refine .ite (fun _ => ?_) fun hg => absurd hb.1.growing hg
    refine extend_sound h (hb.1.parts ▸ hhas) hb.1.flatten (by rw [hb.1.setting, hs]) hb.1.parts hp hcalm hsusp.body ?_
    exact ⟨hspells.sits, (hu.derived.imp fun _ => Derives.single).append hspells.derived, hspells.stop⟩

/-- Resumed with a result of the rule, a suspended sequence reads derivable text or quits. -/
theorem resume_sound (h : job.Derives mark depth apply) (hu : ∀ rule, job.grammar.production? rule = none)
    (hp : p.Sits job.input) (hm : mark = some (r, p.location))
    (hsusp : Suspended job r e p suspension rest setting questions) (ht : Spells job (.rule r) p q t) :
    (job.plainStance mark depth).Yields True (suspension.resume job apply (.settled (.matched t))) (Sound job e p) := by
  rw [hsusp.shape, Suspension.resume]
  refine .next (fun _ => id) (resumeRun_sound h hu hp hm hsusp ht) fun a ha => ?_
  have : (job.plainStance mark depth).Yields True (Suspension.resume job apply (questions.map .memory) a) (Sound job e p) :=
    (remember_sound hp hsusp.questions ha).post fun a _ ha => ha.imp hsusp.covers
  match a, ha with
  | .settled _, _ => exact this
  | .broken _, _ => exact this

end Suspensions

/-! ## Choices -/

section Choices

variable {mark : Mark} {depth : Nat} {apply : Applier} {setting : Setting} {t : Tree}

/-- A seed stays if nothing comes of the sequence that is resumed with it. -/
theorem plantSeed_sound (h : job.Derives mark depth apply) (hu : ∀ rule, job.grammar.production? rule = none)
    (hp : p.Sits job.input) {r : String} (hm : mark = some (r, p.location)) {rest : List Expr} {at' : Setting}
    {questions : List Question} {suspension : Suspension} (hsusp : Suspended job r e p suspension rest at' questions)
    (hbody : ∀ text, Derives job.grammar e text → Derives job.grammar (.rule r) text) (ht : Spells job e p q t) :
    (job.plainStance mark depth).Yields True (plantSeed job apply suspension t) (Sound job e p) := by
  refine .bind .note fun _ => .bind .emit fun _ => .bind (.count (fun _ => Nat.le_refl _) fun _ => Nat.le_refl _) fun _ => ?_
  refine .guard ?_ fun _ => trivial
  have hseed : Spells job (.rule r) p q t := { ht with derived := ht.derived.imp hbody }
  refine .next (fun _ => id) (resume_sound h hu hp hm hsusp hseed) fun a ha => ?_
  match a, ha with
  | .settled (.matched _), ha => exact .pure fun _ => ha
  | .settled (.failed _), _ => exact .pure fun _ => ⟨q, ht⟩
  | .broken _, _ => exact .pure fun _ => trivial

/-- One of the alternatives of a choice `e`. -/
structure Branches (job : Job) (mark : Mark) (setting : Setting) (e branch : Expr) : Prop where
  admits : Admits job mark branch setting
  derives : ∀ text, Derives job.grammar branch text → Derives job.grammar e text
  home : Calm job mark branch setting.location ∨
    ∃ r, mark = some (r, setting.location) ∧ ∀ text, Derives job.grammar e text → Derives job.grammar (.rule r) text

/-- What a choice has in mind: a signal of the rule entered last, and a failure once a grounded
alternative was tried. -/
structure Tried.Minds (job : Job) (mark : Mark) (setting : Setting) (e : Expr) (tried : Tried) (others : List Expr) : Prop where
  recursion : ∀ suspension, tried.recursion = some suspension → ∃ r, mark = some (r, setting.location) ∧
    (∀ text, Derives job.grammar e text → Derives job.grammar (.rule r) text) ∧
      Signal job r e setting.position (.recursion suspension)
  grounded : tried.furthest = none → ∀ r, mark = some (r, setting.location) →
    Grounded (Derives job.grammar · []) none r e → ∃ other ∈ others, Grounded (Derives job.grammar · []) none r other

theorem tryChoice_sound (h : job.Derives mark depth apply) (hu : ∀ rule, job.grammar.production? rule = none)
    (hp : setting.position.Sits job.input) : ∀ {alternatives : List Expr} {tried : Tried},
      (∀ branch ∈ alternatives, Branches job mark setting e branch) → tried.Minds job mark setting e alternatives →
        (job.plainStance mark depth).Yields True (tryChoice job apply setting alternatives tried)
          (Outcome job mark e setting.position)
  | [], tried, _, ht => by
    refine .pure fun _ => ?_
    unfold Tried.exhausted
    split
    · exact .inl trivial
    · next hf hr =>
      obtain ⟨r, hm, -, hs⟩ := ht.recursion _ hr
      refine .inr ⟨r, hm, fun hg => ?_, hs⟩
      obtain ⟨_, hn, -⟩ := ht.grounded hf r hm hg
      simp at hn
    · exact .inl trivial
  | branch :: others, tried, hb, ht => by
    have hbranch := hb branch List.mem_cons_self
    have hothers := fun other hm => hb other (List.mem_cons_of_mem _ hm)
    unfold tryChoice
    refine .next (fun _ => id) (h branch setting hbranch.admits) fun a ha => ?_
    rcases ha with ha | ⟨r, hm, hg, hs⟩
    · match a, ha with
      | .settled (.matched t), ⟨q, hspells⟩ =>
        have hspells : Spells job e setting.position q t := { hspells with derived := hspells.derived.imp hbranch.derives }
        rcases hr : tried.recursion with _ | (_ | suspension)
        · exact .pure fun _ => .inl ⟨q, hspells⟩
        · exact .pure fun _ => .inl ⟨q, hspells⟩
        · obtain ⟨r, hm, hbody, rest, at', questions, hsusp⟩ := ht.recursion _ hr
          exact (plantSeed_sound h hu hp hm hsusp hbody hspells).post fun _ _ => .inl
      | .settled (.failed failure), _ =>
        refine .bind .emit fun _ => .bind (.count (fun _ => Nat.le_refl _) fun _ => Nat.le_refl _) fun _ => ?_
        refine .guard (tryChoice_sound h hu hp hothers ⟨fun suspension hr => ht.recursion _ ?_, fun hf => ?_⟩) fun _ => trivial
        · unfold Tried.failed at hr
          split at hr <;> exact hr
        · unfold Tried.failed at hf
          split at hf
          · simp at hf
          · next hn => simp [hf] at hn
      | .broken _, _ => exact .pure fun _ => .inl trivial
    · match a, hs with
      | .recursion suspension, hs =>
        refine tryChoice_sound h hu hp hothers ⟨fun suspension' hr => ?_, fun hf r' hm' hg' => ?_⟩
        · cases hr
          rcases hbranch.home with hc | ⟨r', hm', hbody⟩
          · exact absurd (.other ((hc r _ hm).2 rfl)) hg
          · rw [hm] at hm'
            cases hm'
            exact ⟨r, hm, hbody, hs.imp hbranch.derives⟩
        · rw [hm] at hm'
          cases hm'
          obtain ⟨other, ho, hgo⟩ := ht.grounded hf r hm hg'
          rcases List.mem_cons.1 ho with rfl | ho
          · exact absurd hgo hg
          · exact ⟨other, ho, hgo⟩

end Choices

/-! ## Expressions -/

section Expressions

variable {mark : Mark} {depth : Nat} {apply : Applier} {setting : Setting}

theorem Inner.calm {r : String} {l : Location} (h : Inner job mark r e l)
    (hn : ¬ Opens (Derives job.grammar · []) none r e) : Calm job mark e l := by
  intro r' l' hm
  rw [h.entered] at hm
  cases hm
  exact ⟨Location.le_refl _, fun _ => hn⟩

theorem literal_sound {text : List Char} (hcr : '\r' ∉ text) (hp : p.Sits job.input) :
    Sound job (.literal text) p (.settled (literalVerdict text (p.rest job.input) p.location)) := by
  unfold literalVerdict
  split
  · next stop h =>
    obtain ⟨⟨more, hr⟩, rfl⟩ := (readLiteral_eq_ok _ _ _ _ _).1 h
    obtain ⟨hq, hrest⟩ := hp.advance hr.symm (not_partsBreak_of_not_mem hcr)
    exact ⟨_, hq, ⟨text, by rw [hrest, hr], .literal⟩, rfl⟩
  · exact trivial

theorem trySequence_sound (h : job.Derives mark depth apply) {parts : List Expr}
    (ha : Admits job mark (.sequence parts) setting) :
    (job.plainStance mark depth).Yields True (trySequence job apply parts false setting)
      (Outcome job mark (.sequence parts) setting.position) := by
  have hhas : ∀ part ∈ parts, job.grammar.Has part := fun part hp => ha.has.part hp
  have calm (hc : Calm job mark (.sequence parts) setting.location) :
      (job.plainStance mark depth).Yields True (trySequence job apply parts false setting)
        (Outcome job mark (.sequence parts) setting.position) := by
    let run := Run.new parts false setting 0
    have hreads : run.Reads job run parts setting.position :=
      ⟨rfl, rfl, rfl, rfl, rfl, ha.sits, rfl, [], rfl, .nil⟩
    have hhas' : ∀ part ∈ run.parts, job.grammar.Has part := hhas
    refine .next (fun _ => id) (drive_sound h hhas' ha.unskipped (calmAlong_of_calm ha.sits hc) hreads) fun b hb => ?_
    cases b with
    | error attempt => exact .pure fun _ => .inl (Attempt.Quits.sound hb)
    | ok run =>
      obtain ⟨hconclude, hspells⟩ := hb.1.conclude hb.2
      refine .ite (fun hg => ?_) fun _ => .pure fun _ => .inl ?_
      · exact absurd (hb.1.growing.symm.trans hg) Bool.false_ne_true
      · rw [hconclude]
        exact ⟨_, hspells⟩
  rcases ha.home with hc | ⟨r, hi⟩
  · exact calm hc
  · cases hi.homed with
    | other hn => exact calm (hi.calm hn)
    | @chain _ rest hchain hcalm =>
      cases hchain
      refine .bind (Q := fun b => b = .error (Run.new (.rule r :: rest) false setting 0).suspend) ?_ fun b => ?_
      · unfold Run.fuel Run.drive
        refine .next_get (fun _ => id) fun s hfits => ?_
        refine .ite (fun _ => .bind .reportReentry fun _ => .pure fun _ => rfl) fun hn => absurd ⟨rfl, ?_⟩ hn
        have hentered : s.entered = some (r, setting.location) := hfits.mark.trans hi.entered
        show (s.entered == some (r, setting.location)) = true
        rw [hentered, beq_self_eq_true]
      · refine .given (fun _ => id) fun ⟨_, hb⟩ => ?_
        subst hb
        refine .pure fun _ => .inr ⟨r, hi.entered, not_grounded_chain rfl, rest, setting, [], ?_⟩
        exact ⟨rfl, rfl, ha.unskipped, hhas, hcalm, hi.body, fun _ => id, by simp⟩

theorem wrapAttempt_sound (hu : ∀ rule, job.grammar.production? rule = none) {name : String} {body : Expr}
    (hb : job.grammar.rule? name = some body) (h : Sound job body p a) :
    Sound job (.rule name) p (wrapAttempt job name a) := by
  match a, h with
  | .settled (.matched t), ⟨q, ht⟩ =>
    unfold wrapAttempt Grammar.produce
    rw [hu]
    exact ⟨q, ht.sits, ht.derived.imp fun _ => .rule hb, by rw [Tree.extent_widened, ht.stop]⟩
  | .settled (.failed _), _ => trivial
  | .broken _, _ => trivial

theorem tryRule_sound (hg : job.grammar.IsCfg) (hr : job.grammar.Rooted) {name : String}
    (h : job.Derives (some (name, setting.location)) depth apply) (ha : Admits job mark (.rule name) setting) :
    (job.plainStance (some (name, setting.location)) depth).Yields True (tryRule job apply name setting)
      (Sound job (.rule name) setting.position) := by
  unfold tryRule
  split
  · exact .pure fun _ => trivial
  · next body hb =>
    obtain ⟨hhomed, hgrounded⟩ := hr name body hb
    have hadmits : Admits job (some (name, setting.location)) body
        ⟨setting.position, some name, job.skippingIn name setting.skipping⟩ :=
      ⟨.body hb, ha.sits, Job.skippingIn_eq_none hg.unoverridden ha.unskipped, .inr ⟨name, rfl, hhomed, fun _ => .rule hb⟩⟩
    refine .bind .emit fun _ => .bind (.count (fun _ => Nat.le_refl _) fun _ => Nat.le_refl _) fun _ => ?_
    refine .bind ((h body _ hadmits).guard fun _ => trivial) fun a => .given (fun _ => id) fun ⟨_, ha⟩ => ?_
    have hsound : Sound job body setting.position a := by
      rcases ha with ha | ⟨r, hm, hn, -⟩
      · exact ha
      · cases hm
        exact absurd hgrounded hn
    exact .bind .emit fun _ => .pure fun _ => wrapAttempt_sound hg.unproduced hb hsound

/-- The alternatives of a choice may be tried where the choice may. -/
theorem branches {alternatives : List Expr} (ha : Admits job mark (.choice alternatives) setting) :
    ∀ branch ∈ alternatives, Branches job mark setting (.choice alternatives) branch := by
  intro branch hb
  have hhas : job.grammar.Has branch := ha.has.part hb
  have hd : ∀ text, Derives job.grammar branch text → Derives job.grammar (.choice alternatives) text :=
    fun _ => .choice hb
  have calm (hc : Calm job mark (.choice alternatives) setting.location) :
      Branches job mark setting (.choice alternatives) branch := by
    have hc' : Calm job mark branch setting.location := fun r l hm =>
      ⟨(hc r l hm).1, fun hl => not_opens_part ((hc r l hm).2 hl) rfl hb⟩
    exact ⟨⟨hhas, ha.sits, ha.unskipped, .inl hc'⟩, hd, .inl hc'⟩
  rcases ha.home with hc | ⟨r, hi⟩
  · exact calm hc
  · cases hi.homed with
    | other hn => exact calm (hi.calm hn)
    | chain hchain => cases hchain
    | choice hhomed =>
      have hi' : Inner job mark r branch setting.location :=
        ⟨hi.entered, hhomed branch hb, fun text h => hi.body text (hd text h)⟩
      exact ⟨⟨hhas, ha.sits, ha.unskipped, .inr ⟨r, hi'⟩⟩, hd, .inr ⟨r, hi.entered, hi.body⟩⟩

theorem evaluate_sound (hg : job.grammar.IsCfg) (hr : job.grammar.Rooted) {e : Expr}
    (h : job.Derives (mark.inside e.reference? setting.location) depth apply) (ha : Admits job mark e setting) :
    (job.plainStance (mark.inside e.reference? setting.location) depth).Yields True (evaluate job apply e setting)
      (Outcome job mark e setting.position) := by
  have hk := hg.kinds e ha.has
  cases e with
  | literal text => exact .pure fun _ => .inl (literal_sound hk ha.sits)
  | rule name => exact (tryRule_sound hg hr h ha).post fun _ _ => .inl
  | sequence parts => exact trySequence_sound h ha
  | choice alternatives =>
    cases alternatives with
    | nil => exact .pure fun _ => .inl trivial
    | cons first others =>
      refine tryChoice_sound h hg.unproduced ha.sits (branches ha) { recursion := ?_, grounded := ?_ }
      · intro suspension hn
        cases hn
      · intro _ r _ hgr
        cases hgr with
        | other hn => exact ⟨first, List.mem_cons_self, .other (not_opens_part hn rfl List.mem_cons_self)⟩
        | choice hmem hgr => exact ⟨_, hmem, hgr⟩
  | _ => exact hk.elim

/-! ## Parses -/

theorem Outcome.awaiting {e : Expr} (h : Outcome job mark e setting.position a) :
    Outcome job mark e setting.position (a.awaiting job (.of e setting)) := by
  rcases h with h | ⟨r, hm, hn, hs⟩
  · rw [h.awaiting]
    exact .inl h
  · refine .inr ⟨r, hm, hn, ?_⟩
    match a, hs with
    | .recursion none, _ => trivial
    | .recursion (some suspension), ⟨rest, at', questions, hsusp⟩ =>
      unfold Attempt.awaiting
      split
      · next suspension' heq =>
        cases heq
        split
        · refine ⟨rest, at', questions ++ [.of e setting], { hsusp with shape := ?_, questions := ?_ }⟩
          · rw [hsusp.shape, List.map_append]
            rfl
          · intro q hq
            rcases List.mem_append.1 hq with hq | hq
            · exact hsusp.questions q hq
            · rw [List.mem_singleton.1 hq]
              exact ⟨rfl, hsusp.covers⟩
        · exact ⟨rest, at', questions, hsusp⟩
      · next hne => exact absurd rfl (hne suspension)

theorem applyWithin_sound (hg : job.grammar.IsCfg) (hr : job.grammar.Rooted) :
    ∀ (levels : Nat) (mark : Mark) (depth : Nat), job.Derives mark depth (applyWithin job levels)
  | 0, mark, depth => fun _ _ _ => .pure fun _ => .inl trivial
  | levels + 1, mark, depth => by
    intro e setting ha
    refine .remembering (Q := Outcome job mark e setting.position) (fun _ _ mem v hmem hv => .inl ?_) ?_ ?_
      (fun _ v mem ho hmem => hmem.insert fun p hp hpl => ?_) fun _ a ho => ho.awaiting
    · obtain ⟨q, hq, hql, hqe, -⟩ := hmem.find hv
      have hplain : e.Throughout (·.fallback? = none) := ha.has.throughout fun e he => by
        have := hg.kinds e he
        cases e <;> first | rfl | exact this.elim
      have he : e = q.expr := Expr.eq_of_same hplain hqe
      rw [he]
      exact hq _ ha.sits hql.symm
    · -- the reference signals that the rule came back to itself
      refine .given (fun _ => id) fun ⟨_, name, he, hm⟩ => ?_
      refine .bind .reportReentry fun _ => .pure fun _ => .inr ⟨name, hm, ?_, trivial⟩
      rw [he]
      exact not_grounded_rule
    · exact (evaluate_sound hg hr (applyWithin_sound hg hr levels _ _) ha).guard fun _ => trivial
    · rw [hp.ext ha.sits hpl]
      rcases ho with ho | ⟨_, _, _, hs⟩
      · exact ho
      · exact hs.elim

end Expressions

/-- What a parse accepts is derivable from the start rule. -/
theorem Grammar.parse_derives {g : Grammar} (hg : g.IsCfg) (hr : g.Rooted) {options : Options}
    {externals : Externals} {input : List Char} {t : Tree}
    (h : (g.parse options externals input).result = .ok t) :
    ∃ taken rest, input = taken ++ rest ∧ Derives g (.rule g.start) taken ∧
      t.extent.stop = Location.origin.after taken := by
  let job := Job.new g (.rule g.start) options externals input
  have hadmits : Admits job none (.rule g.start) .start :=
    ⟨.start, Position.sits_origin, hg.unskipped, .inl fun _ _ hm => nomatch hm⟩
  have hfits : (job.plainStance none 0).Fits .start := ⟨Memory.keeps_empty, rfl, rfl, fun _ => Nat.le_refl _⟩
  have hsteps := @applyWithin_sound job hg hr options.depthLimit none 0 _ _ hadmits
  rcases (hsteps .start).2 trivial hfits with hrung | ⟨ho, -⟩
  · exact hrung.elim
  · have h : Job.resultOf _ ((apply job (.rule g.start) .start).on .start).1 = .ok t := h
    have ho : Outcome job none (.rule g.start) .origin ((apply job (.rule g.start) .start).on .start).1 := ho
    generalize ((apply job (.rule g.start) .start).on .start).1 = a at h ho
    rcases ho with ho | ⟨_, hm, -⟩
    · match a, ho with
      | .settled (.matched u), ⟨q, hq⟩ =>
        cases h
        obtain ⟨before, hi, -, hl, -⟩ := hq.sits
        obtain ⟨text, hrest, hd⟩ := hq.derived
        have hrest : input = text ++ q.rest input := hrest
        have : before = text := List.append_cancel_right (hi.symm.trans hrest)
        exact ⟨text, _, hrest, hd, by rw [hq.stop, hl, this]⟩
      | .settled (.failed _), _ => cases h
      | .broken _, _ => cases h
    · cases hm

/-! ## Instances -/

namespace Grammar

/-- A sum is a one, or a sum with a one added to it. -/
def ofSums : Grammar where
  start := "sum"
  rules := [
    ("sum", .choice [.sequence [.rule "sum", .literal ['+'], .rule "one"], .rule "one"]),
    ("one", .literal ['1'])]
  skipper := none
  overrides := []
  productions := []
  kinds := .empty

theorem isCfg_ofSums : ofSums.IsCfg where
  kinds _ he := of_decide_eq_true (@Has.check _ (decide ·.IsCfg) (by decide +kernel) _ he)
  unskipped := rfl
  unoverridden _ _ h := nomatch h
  unproduced _ := rfl

theorem rooted_ofSums : ofSums.Rooted :=
  @rooted_of_check ofSums (fun _ => false) (by decide +kernel) (by decide +kernel)

theorem parse_derives_sums :
    ∃ t, (ofSums.parse .standard .nothing ['1', '+', '1', '+', '1', ';']).result = .ok t ∧
      ∃ taken rest, ['1', '+', '1', '+', '1', ';'] = taken ++ rest ∧ Derives ofSums (.rule "sum") taken ∧
        t.extent.stop = Location.origin.after taken := by
  have hok : (ofSums.parse .standard .nothing ['1', '+', '1', '+', '1', ';']).result.isOk = true := by
    decide +kernel
  cases h : (ofSums.parse .standard .nothing ['1', '+', '1', '+', '1', ';']).result with
  | ok t => exact ⟨t, rfl, parse_derives isCfg_ofSums rooted_ofSums h⟩
  | error refusal => simp [h, Except.isOk, Except.toBool] at hok

/-- Trying `b` enters `a`, which has no base case of its own, and what follows in `b` becomes one. -/
def borrowing : Grammar where
  start := "b"
  rules := [
    ("b", .choice [.rule "a", .literal ['y']]),
    ("a", .sequence [.rule "a", .literal ['x']])]
  skipper := none
  overrides := []
  productions := []
  kinds := .empty

theorem isCfg_borrowing : borrowing.IsCfg where
  kinds _ he := of_decide_eq_true (@Has.check _ (decide ·.IsCfg) (by decide +kernel) _ he)
  unskipped := rfl
  unoverridden _ _ h := nomatch h
  unproduced _ := rfl

/-- Nothing can be derived from a rule that always begins with itself. -/
theorem not_derives_borrowing {e : Expr} {text : List Char} (h : Derives borrowing e text) :
    e ≠ .rule "a" ∧ e ≠ .sequence [.rule "a", .literal ['x']] := by
  induction h with
  | literal => simp
  | @rule name body text hb _ ih =>
    refine ⟨fun he => ?_, by simp⟩
    cases he
    cases hb
    exact ih.2 rfl
  | nil => simp
  | @cons part parts a b _ _ ih1 _ =>
    refine ⟨by simp, fun he => ?_⟩
    cases he
    exact ih1.1 rfl
  | choice => simp

/-- Where left recursion is not grounded, more is accepted than can be derived. -/
theorem parse_accepts_underivable :
    borrowing.IsCfg ∧ '\r' ∉ ['y', 'x'] ∧
      ∃ t, (borrowing.parse .standard .nothing ['y', 'x']).result = .ok t ∧
        ¬ ∃ taken rest, ['y', 'x'] = taken ++ rest ∧ Derives borrowing (.rule borrowing.start) taken ∧
          t.extent.stop = Location.origin.after taken := by
  refine ⟨isCfg_borrowing, by decide, ?_⟩
  have hstop : (borrowing.parse .standard .nothing ['y', 'x']).result.toOption.map (·.extent.stop) =
      some ⟨0, 2⟩ := by
    decide +kernel
  cases h : (borrowing.parse .standard .nothing ['y', 'x']).result with
  | error refusal => simp [h, Except.toOption] at hstop
  | ok t =>
    refine ⟨t, rfl, ?_⟩
    rintro ⟨taken, rest, -, hd, hl⟩
    have hl : Location.origin.after taken = ⟨0, 2⟩ := by simpa [h, Except.toOption, hl] using hstop
    cases hd with
    | rule hb hd =>
      cases hb
      cases hd with
      | choice hm hd =>
        simp only [List.mem_cons, List.not_mem_nil, or_false] at hm
        rcases hm with rfl | rfl
        · exact (not_derives_borrowing hd).1 rfl
        · cases hd
          exact absurd hl (by decide)

end Grammar

end Packrat

/-
What a turn of a loop achieves. A sequence that goes on has done a part, or it has skipped to where the part
is tried again; a repetition that goes on has got further, and so has a sequence that grows. Getting
further is told by lines and columns. As long as these are places of the text, input was taken then, so
every turn brings down what is left to the loop.
-/
import Packrat.Proofs.Contract.Presence
import Packrat.Proofs.Memory.Bare
import Packrat.Proofs.Parse.Turns

namespace Packrat

open Stance

/-- A part is done, or input is skipped before the part is tried again. -/
def Run.Advances (run further : Run) : Prop :=
  further.done = run.done + 1 ∧ run.collected.cursor.location ≤ further.collected.cursor.location ∨
    further.done = run.done ∧ run.collected.cursor.location < further.collected.cursor.location

variable {job : Job} {C : Contract job}

namespace Contract

/-! ## Sessions and sequences under way -/

/-- A session in which a parse can try an expression in a setting. -/
structure Ready (C : Contract job) (e : Expr) (setting : Setting) (s : Session) : Prop where
  memory : Memory.Keeps C.Remembers s.memory
  deepest : job.options.counting = true → s.depth ≤ s.counts.deepest
  admits : C.Admits s.entered e setting

/-- A sequence with what it is resumed with: what came of the part that it waits for, or, if it was set
aside, a seed for its first part. -/
inductive Resumes (C : Contract job) : Run → Attempt → Prop
  | part {run : Run} {part : Expr} {a : Attempt} : C.On 0 run run → run.parts[run.done]? = some part →
    C.Comes (fun _ => True) part run.collected.cursor a → Resumes C run a
  | seed {run : Run} {rule : String} {seed : Tree} : C.On 0 run run → run.parts[run.done]? = some (.rule rule) →
    run.done = 0 → (∀ t, (t = seed ∨ ∃ name, job.grammar.produce name seed = .ok t) →
      C.Fine (.rule rule) run.collected.cursor (.matched t)) →
    Resumes C { run with growing := true, needsSeed := true } (.settled (.matched seed))

/-- A sequence that waits for an expression is resumed with what comes of it. -/
theorem Feeds.resumes {e e' : Expr} {p p' : Position} {run : Run} {works others : List Waiting} {a : Attempt} (hC : C.Lawful)
    (h : C.Feeds e p works e' p') (hw : works = .sequence run :: others) (ha : C.Comes (fun _ => True) e p a) :
    C.Resumes run a := by
  induction h with
  | done | memory | wrapping => cases hw
  | sequence hon hp =>
    cases hw
    exact .part hon hp ha
  | choice hc hm _ ih =>
    refine ih hw ?_
    cases a with
    | settled v => exact hC.plain.chosen hc hm ha
    | recursion | broken => trivial

/-- A sequence that takes no more turns is complete, or something else came of it. -/
def Concludes (C : Contract job) (first : Nat) (origin : Run) : Except Attempt Run → Prop
  | .ok last => C.On first origin last ∧ last.parts[last.done]? = none
  | .error _ => True

namespace Ready

variable {e : Expr} {setting : Setting} {s t : Session}

theorem start (hat : C.At .origin) (h : job.grammar.Has e) : C.Ready e .start .start :=
  ⟨Memory.keeps_empty, fun _ => Nat.le_refl _, h, hat, .standard, nofun⟩

theorem fits (h : C.Ready e setting s) : (C.stance s.entered s.depth).Fits s := ⟨h.memory, rfl, rfl, h.deepest⟩

/-- Another step can be taken after one that leaves a session of the stance. -/
theorem after (h : C.Ready e setting s) (ht : (C.stance s.entered s.depth).Fits t) : C.Ready e setting t where
  memory := ht.memory
  deepest := ht.deepest
  admits := by
    rw [show t.entered = s.entered from ht.mark]
    exact h.admits

/-- What a step yields in such a session is so, and the session stays such. -/
theorem yields {α : Type} {x : Eval α} {Q : α → Prop} (h : C.Ready e setting s)
    (hx : (C.stance s.entered s.depth).Yields True x Q) : Q (x.on s).1 ∧ (C.stance s.entered s.depth).Fits (x.on s).2 :=
  ((hx s).2 trivial h.fits).resolve_left id

end Ready

/-! ## Turns -/

section

variable {m : Mark} {depth : Nat} {apply : Applier} {first : Nat} {origin run : Run} {part : Expr} {a : Attempt}

/-- A step that yields two things yields both. -/
theorem both {α : Type} {x : Eval α} {Q R : α → Prop} (hx : (C.stance m depth).Yields True x Q)
    (hx' : (C.stance m depth).Yields True x R) : (C.stance m depth).Yields True x fun a => Q a ∧ R a := by
  refine fun s => ⟨(hx s).1, fun h hs => .inr ?_⟩
  obtain ⟨hQ, hs'⟩ := ((hx s).2 h hs).resolve_left id
  exact ⟨⟨hQ, (((hx' s).2 h hs).resolve_left id).1⟩, hs'⟩

/-- What came of a part is taken, or what is skipped lies ahead. -/
theorem absorb_advances (h : C.KeptBy m depth apply) (hm : m.Behind run.setting.location)
    (hmode : job.grammar.Mode run.setting.skipping) (hat : C.At run.collected.cursor)
    (hforward : run.setting.location ≤ run.collected.cursor.location) :
    (C.stance m depth).Yields True (run.absorb job apply a) fun
      | .ok further => run.Advances further
      | .error _ => True := by
  rcases a with (t | why | span | failure) | (_ | suspension) | error
  · exact pure (.inl ⟨rfl, Run.le_cursor_collect t⟩)
  · exact pure (.inl ⟨rfl, Location.le_refl _⟩)
  · exact pure (.inl ⟨rfl, Position.le_moveTo _ _⟩)
  · refine bind (skipBetween_kept h hmode hat (hm.mono hforward)) fun skipped hs => ?_
    split
    · next collected =>
      obtain ⟨stop, ⟨_, _, -, -, -, hlt⟩, rfl⟩ := hs
      refine pure (.inr ⟨rfl, ?_⟩)
      show _ < (run.collected.skip job.input stop).cursor.location
      rw [Accumulator.cursor_skip, Position.location_moveTo_of_le (Location.le_of_lt hlt)]
      exact hlt
    · exact pure trivial
    · exact pure trivial
  all_goals exact pure trivial

theorem take_kept (hC : C.Lawful) (h : C.KeptBy m depth apply) (hm : m.Behind run.setting.location)
    (hon : C.On first origin run) (hp : run.parts[run.done]? = some part)
    (ha : C.Comes (fun _ => True) part run.collected.cursor a) :
    (C.stance m depth).Yields True (run.take job apply a) fun
      | .inl r => C.Concludes first origin r
      | .inr further => C.On first origin further ∧ run.Advances further := by
  refine bind (both (absorb_kept hC h hm hon hp ha)
    (absorb_advances h hm hon.mode (hon.at_cursor hC) hon.forward)) fun r hr => ?_
  cases r with
  | ok further => exact pure hr
  | error attempt => exact pure trivial

/-- A turn that a sequence goes on after does a part, or skips to where the part is tried again. -/
theorem turn_kept (hC : C.Lawful) (h : C.KeptBy m depth apply) (hm : m.Behind run.setting.location)
    (hon : C.On first origin run) : (C.stance m depth).Yields True (run.turn job apply) fun
      | .inl r => C.Concludes first origin r
      | .inr further => run.done < run.parts.length ∧ C.On first origin further ∧ run.Advances further := by
  unfold Run.turn
  split
  · next hp => exact pure ⟨hon, hp⟩
  · next part hp =>
    refine .next_get (fun _ => id) fun s _ => .ite (fun _ => ?_) fun _ => ?_
    · exact bind (Q := fun _ => True) .reportReentry fun _ _ => pure trivial
    · refine bind (h part run.here (hon.admits hC hp hm)) fun a ha => ?_
      refine (take_kept hC h hm hon hp (ha.imp fun _ _ _ => trivial)).post fun next _ hnext => ?_
      cases next with
      | inl r => exact hnext
      | inr further => exact ⟨(List.getElem?_eq_some_iff.1 hp).1, hnext⟩

/-- So does the first turn of a sequence that is resumed. -/
theorem resumption_kept (hC : C.Lawful) (h : C.KeptBy m depth apply) (hm : m.Behind run.setting.location)
    (hresumes : C.Resumes run a) : (C.stance m depth).Yields True (run.resumption job apply a) fun
      | .inl r => C.Concludes 0 { run with needsSeed := false } r
      | .inr further => run.done < run.parts.length ∧ C.On 0 { run with needsSeed := false } further ∧
        run.Advances further := by
  cases hresumes with
  | part hon hp ha =>
    obtain ⟨parts, flatten, setting, collected, done, silence, growing, needsSeed⟩ := run
    cases hon.ready
    refine (take_kept hC h hm hon hp ha).post fun next _ hnext => ?_
    cases next with
    | inl r => exact hnext
    | inr further => exact ⟨(List.getElem?_eq_some_iff.1 hp).1, hnext⟩
  | @seed run rule seed hon hp hd hseed =>
    have hlt := (List.getElem?_eq_some_iff.1 hp).1
    unfold Run.resumption Run.seeded
    simp only [if_true]
    split
    · next name _ =>
      cases ht : job.grammar.produce name seed with
      | ok t => exact pure ⟨hlt, hon.planted hC hp hd (hseed t (.inr ⟨name, ht⟩)), .inl ⟨rfl, Run.le_cursor_collect t⟩⟩
      | error error => exact pure trivial
    · exact pure ⟨hlt, hon.planted hC hp hd (hseed seed (.inl rfl)), .inl ⟨rfl, Run.le_cursor_collect seed⟩⟩

/-- A turn that a sequence grows by gets further. -/
theorem growth_kept (hC : C.Lawful) (h : C.KeptBy m depth apply) (hhas : job.grammar.Has run.expr)
    (hmode : job.grammar.Mode run.setting.skipping) {cursor : Position} {tree : Tree} (hm : m.Behind cursor.location)
    (hg : C.Grown run cursor tree) : (C.stance m depth).Yields True (run.growth job apply (cursor, tree)) fun
      | .inl _ => True
      | .inr further => C.Grown run further.1 further.2 ∧ cursor.location < further.1.location := by
  unfold Run.growth
  refine .ite (fun _ => pure trivial) fun _ => bind (tail_kept hC h hm hhas hmode hg) fun a ha => ?_
  split
  · next more =>
    refine .ite (fun _ => pure trivial) fun hlt => ?_
    have hlt := Location.not_le.1 hlt
    obtain ⟨further, hcontinues, hgoing, hdone, hconclude⟩ := ha more rfl
    refine bind (Q := fun _ => True) (.count (fun _ => Nat.le_refl _) fun _ => Nat.le_refl _) fun _ _ => ?_
    refine bind (Q := fun _ => True) .note fun _ _ => pure ⟨?_, ?_⟩
    · exact hC.chains.grow hhas hg hcontinues hgoing hdone hconclude hlt
    · rwa [Position.location_moveTo_of_le (Location.le_of_lt hlt)]
  · exact pure trivial
  · exact pure trivial

/-- A turn that a repetition goes on after gets further. -/
theorem round_kept (hC : C.Lawful) (h : C.KeptBy m depth apply) {body : Expr} {bounds : Bounds} {fallback : Option Tree}
    {setting : Setting} {rounds : Rounds} (ha : C.Admits m (.repetition body bounds fallback) setting)
    (ht : C.Turning body bounds setting.position rounds) (hle : setting.location ≤ rounds.collected.cursor.location) :
    (C.stance m depth).Yields True (rounds.turn job apply body bounds setting) fun
      | .inl _ => True
      | .inr further => C.Turning body bounds setting.position further ∧
        rounds.collected.cursor.location < further.collected.cursor.location := by
  have hmove {stop : Location} (hn : ¬ stop ≤ rounds.collected.cursor.location) :
      rounds.collected.cursor.location < (rounds.collected.cursor.moveTo job.input stop).location := by
    have hlt := Location.not_le.1 hn
    rwa [Position.location_moveTo_of_le (Location.le_of_lt hlt)]
  unfold Rounds.turn
  refine .ite (fun _ => pure trivial) fun hgo => ?_
  have hgo : rounds.mayGoOn bounds = true := by simpa using hgo
  have hbody : C.Admits m body (setting.moved rounds.collected.cursor) :=
    ⟨ha.has.part List.mem_cons_self, hC.turns.cursor ht, ha.mode, ha.behind.mono hle⟩
  refine bind (h body _ hbody) fun a hcame => ?_
  rcases a with (t | (_ | _ | _) | span | failure) | suspension | error
  · exact .ite (fun _ => pure trivial) fun hn => pure ⟨hC.turns.matched ht hgo hcame, hmove hn⟩
  · exact pure trivial
  · exact pure trivial
  · exact pure trivial
  · exact .ite (fun _ => pure trivial) fun hn => pure ⟨hC.turns.omitted ht hgo hcame, hmove hn⟩
  · refine bind (skipBetween_kept h ha.mode (hC.turns.cursor ht) (ha.behind.mono hle)) fun skipped hs => ?_
    split
    · next collected =>
      obtain ⟨stop, hskips, rfl⟩ := hs
      refine pure ⟨hC.turns.skipped ht hskips, ?_⟩
      obtain ⟨_, _, -, -, -, hlt⟩ := hskips
      show _ < (rounds.collected.skip job.input stop).cursor.location
      rw [Accumulator.cursor_skip]
      exact hmove (Location.not_le.2 hlt)
    · exact pure trivial
    · exact pure trivial
  · exact pure trivial
  · exact pure trivial

end

end Contract

/-! ## Turns in the text -/

/-- What is found is in the text. -/
abbrev Job.presence (job : Job) : Contract job := (Ground.text job.input).presence

/-- How many parts and how much input are left to a sequence. -/
def Run.left (job : Job) (run : Run) : Nat := run.parts.length - run.done + job.remaining run.collected.cursor

section

variable {m : Mark} {depth first : Nat} {apply : Applier} {origin run further : Run} {p q : Position}

theorem Job.remaining_lt (hp : p.Sits job.input) (hq : q.Sits job.input) (h : p.location < q.location) :
    job.remaining q < job.remaining p := by
  have hlt := (hp.lt_iff hq).1 h
  have hle := hq.offset_le
  unfold Job.remaining
  omega

/-- Getting further in the text is taking input. -/
theorem Run.Advances.offset (h : run.Advances further) (hp : run.collected.cursor.Sits job.input)
    (hq : further.collected.cursor.Sits job.input) :
    further.done = run.done + 1 ∧ run.collected.cursor.offset ≤ further.collected.cursor.offset ∨
      further.done = run.done ∧ run.collected.cursor.offset < further.collected.cursor.offset :=
  h.imp (fun h => ⟨h.1, (hp.le_iff hq).1 h.2⟩) fun h => ⟨h.1, (hp.lt_iff hq).1 h.2⟩

theorem Run.Advances.left_lt (h : run.Advances further) (hp : run.collected.cursor.Sits job.input)
    (hq : further.collected.cursor.Sits job.input) (hparts : further.parts = run.parts) (hd : run.done < run.parts.length) :
    further.left job < run.left job := by
  have hle := hq.offset_le
  unfold Run.left Job.remaining
  rw [hparts]
  rcases h.offset hp hq with ⟨hdone, hoffset⟩ | ⟨hdone, hoffset⟩ <;> omega

/-- What is left to a sequence is less after a turn that it goes on after. -/
theorem Run.turn_onward (hj : job.Rooted) (h : job.presence.KeptBy m depth apply) (hm : m.Behind origin.setting.location)
    (hon : job.presence.On first origin run) : (job.presence.stance m depth).Yields True (run.turn job apply)
      (Onward (job.presence.Concludes first origin) (job.presence.On first origin) (Run.left job) (run.left job)) := by
  have hC := Ground.presence_lawful hj.bears
  have hm' : m.Behind run.setting.location := by
    rw [hon.continues.setting]
    exact hm
  refine (Contract.turn_kept hC h hm' hon).post fun next _ hnext => ?_
  cases next with
  | inl r => exact hnext
  | inr further =>
    obtain ⟨hd, hfurther, hadvances⟩ := hnext
    have hparts : further.parts = run.parts := hfurther.continues.parts.trans hon.continues.parts.symm
    exact ⟨hfurther, hadvances.left_lt (hon.at_cursor hC) (hfurther.at_cursor hC) hparts hd⟩

/-- A sequence that was set aside has grown to somewhere in the text. -/
def Run.GrownTo (job : Job) (m : Mark) (run : Run) (grown : Position × Tree) : Prop :=
  m.Behind grown.1.location ∧ job.presence.Grown run grown.1 grown.2

/-- It begins to grow where it is complete. -/
theorem Run.grownTo_of_complete (hm : m.Behind run.setting.location) (hon : job.presence.On 0 origin run)
    (hd : run.parts[run.done]? = none) (hg : run.growing = true) :
    run.GrownTo job m (run.collected.cursor, run.collected.tree job.input) :=
  ⟨hm.mono hon.forward, Ground.presence_chains.complete hon.has hd hg (hon.seeded hg) hon.going⟩

/-- Less input is left to a sequence after a turn that it grows by. -/
theorem Run.growth_onward (hj : job.Rooted) (h : job.presence.KeptBy m depth apply) (hhas : job.grammar.Has run.expr)
    (hmode : job.grammar.Mode run.setting.skipping) {grown : Position × Tree} (hgrown : run.GrownTo job m grown) :
    (job.presence.stance m depth).Yields True (run.growth job apply grown)
      (Onward (fun _ => True) (run.GrownTo job m) (fun grown => job.remaining grown.1) (job.remaining grown.1)) := by
  obtain ⟨hm, hgrown⟩ := hgrown
  refine (Contract.growth_kept (Ground.presence_lawful hj.bears) h hhas hmode hm hgrown).post fun next _ hnext => ?_
  cases next with
  | inl r => trivial
  | inr further =>
    obtain ⟨hfurther, hlt⟩ := hnext
    exact ⟨⟨hm.mono (Location.le_of_lt hlt), hfurther⟩, Job.remaining_lt hgrown.2.1 hfurther.2.1 hlt⟩

/-- The rounds of a repetition have come to somewhere in the text. -/
def Rounds.RunTo (job : Job) (body : Expr) (bounds : Bounds) (setting : Setting) (rounds : Rounds) : Prop :=
  job.presence.Turning body bounds setting.position rounds ∧ setting.location ≤ rounds.collected.cursor.location

/-- Less input is left to a repetition after a turn that it goes on after. -/
theorem Rounds.turn_onward (hj : job.Rooted) (h : job.presence.KeptBy m depth apply) {body : Expr} {bounds : Bounds}
    {fallback : Option Tree} {setting : Setting} (ha : job.presence.Admits m (.repetition body bounds fallback) setting)
    {rounds : Rounds} (hrounds : rounds.RunTo job body bounds setting) :
    (job.presence.stance m depth).Yields True (rounds.turn job apply body bounds setting)
      (Onward (fun _ => True) (Rounds.RunTo job body bounds setting) (fun rounds => job.remaining rounds.collected.cursor)
        (job.remaining rounds.collected.cursor)) := by
  have hC := Ground.presence_lawful hj.bears
  obtain ⟨hturning, hle⟩ := hrounds
  refine (Contract.round_kept hC h ha hturning hle).post fun next _ hnext => ?_
  cases next with
  | inl r => trivial
  | inr further =>
    obtain ⟨hfurther, hlt⟩ := hnext
    exact ⟨⟨hfurther, Location.le_trans hle (Location.le_of_lt hlt)⟩,
      Job.remaining_lt (hC.turns.cursor hturning) (hC.turns.cursor hfurther) hlt⟩

end

end Packrat

/-
Every loop of a parse ends. As long as results lie in the text, a sequence takes no more turns than it has
parts and there are characters left, and one; so does one that is resumed, and for repetitions and
sequences that grow the characters count alone. Nothing else is ever tried than what is ready to be tried,
and a parse that allows loops no more turns than that is the same parse. Items of fallbacks that claim
places elsewhere fool the loops.
-/
import Packrat.Parse.Matcher
import Packrat.Proofs.Contract.Reliance

namespace Packrat

open Stance

variable {job : Job}

/-! ## Ends -/

section

variable {m : Mark} {depth first : Nat} {apply : Applier} {origin run : Run} {a : Attempt} {s : Session}

/-- A sequence ends within as many turns as there are parts and characters left to it, and one. -/
theorem Run.drive_ends (hj : job.Rooted) (h : job.presence.KeptBy m depth apply) (hm : m.Behind origin.setting.location)
    (hon : job.presence.On first origin run) (hs : (job.presence.stance m depth).Fits s) : ∃ n r t, n ≤ run.left job + 1 ∧
      EndsIn (Run.turn job apply) n (run.turn job apply) s r t ∧ (run.drive job apply (run.fuel job)).on s = (r, t) ∧
      job.presence.Concludes first origin r ∧ (job.presence.stance m depth).Fits t := by
  obtain ⟨n, r, t, hn, hends, hr, ht⟩ := exists_endsIn (fun _ hon => Run.turn_onward hj h hm hon) (fun _ => id)
    (Run.turn_onward hj h hm hon) hs
  refine ⟨n, r, t, hn, hends, ?_, hr, ht⟩
  rw [Run.drive_eq_takeTurns]
  refine hends.takeTurns ?_
  unfold Run.left at hn
  unfold Run.fuel
  omega

/-- A sequence that is resumed takes what it has waited for as its first turn. -/
theorem Run.resume_ends (hj : job.Rooted) (h : job.presence.KeptBy m depth apply) (hm : m.Behind run.setting.location)
    (hresumes : job.presence.Resumes run a) (hs : (job.presence.stance m depth).Fits s) : ∃ n r t, n ≤ run.left job + 1 ∧
      EndsIn (Run.turn job apply) n (run.resumption job apply a) s r t ∧
      (run.resume job apply a).on s = (Run.ending job apply r).on t ∧
      job.presence.Concludes 0 { run with needsSeed := false } r ∧ (job.presence.stance m depth).Fits t := by
  have hC := Ground.presence_lawful hj.bears
  have hcursor : run.collected.cursor.Sits job.input := by
    cases hresumes with
    | part hon => exact hon.at_cursor hC
    | seed hon => exact hon.at_cursor hC
  obtain ⟨hnext, ht⟩ := ((Contract.resumption_kept hC h hm hresumes s).2 trivial hs).resolve_left id
  rw [Run.resume_eq_resumption, Eval.on_bind]
  cases hon : (run.resumption job apply a).on s with
  | mk next t =>
  rw [hon] at hnext ht
  cases next with
  | inl r => exact ⟨1, r, t, by omega, .last hon, rfl, hnext, ht⟩
  | inr further =>
    obtain ⟨hd, hfurther, hadvances⟩ := hnext
    have hlt := hadvances.left_lt hcursor (hfurther.at_cursor hC) hfurther.continues.parts hd
    have hm' : m.Behind ({ run with needsSeed := false } : Run).setting.location := hm
    obtain ⟨n, r, t', hn, hends, hdrive, hr, ht'⟩ := Run.drive_ends hj h hm' hfurther ht
    refine ⟨n + 1, r, t', by omega, .more hon hends, ?_, hr, ht'⟩
    rw [Eval.on_bind, hdrive]

/-- A sequence that was set aside grows within as many turns as there are characters left, and one. -/
theorem Run.complete_ends (hj : job.Rooted) (h : job.presence.KeptBy m depth apply) (hm : m.Behind run.setting.location)
    (hon : job.presence.On 0 run run) (hd : run.parts[run.done]? = none) (hg : run.growing = true)
    (hs : (job.presence.stance m depth).Fits s) : ∃ n r t, n ≤ job.remaining run.collected.cursor + 1 ∧
      EndsIn (run.growth job apply) n (run.growth job apply (run.collected.cursor, run.collected.tree job.input)) s r t ∧
      (run.complete job apply).on s = (r, t) ∧ (job.presence.stance m depth).Fits t := by
  have hgrown := Run.grownTo_of_complete hm hon hd hg
  have hturn (grown : Position × Tree) (hgrown : run.GrownTo job m grown) := Run.growth_onward hj h hon.has hon.mode hgrown
  obtain ⟨n, r, t, hn, hends, -, ht⟩ := exists_endsIn hturn (fun _ => id) (hturn _ hgrown) hs
  refine ⟨n, r, t, hn, hends, ?_, ht⟩
  unfold Run.complete
  rw [if_pos hg, Run.extend_eq_takeTurns]
  -- without input left, the sequence stays as it is
  refine hends.takeTurns_of_idle hturn (fun _ => id) (fun grown _ hzero => ?_) hgrown hs (Nat.le_refl _)
  obtain ⟨cursor, tree⟩ := grown
  have hzero : job.input.length - cursor.offset = 0 := hzero
  exact Run.growth_of_length_le (by omega)

/-- A repetition ends within as many turns as there are characters left, and one. -/
theorem Rounds.drive_ends (hj : job.Rooted) (h : job.presence.KeptBy m depth apply) {body : Expr} {bounds : Bounds}
    {fallback : Option Tree} {setting : Setting} (ha : job.presence.Admits m (.repetition body bounds fallback) setting)
    (hs : (job.presence.stance m depth).Fits s) : ∃ n r t, n ≤ job.remaining setting.position + 1 ∧
      EndsIn (Rounds.turn job apply body bounds setting) n
        (Rounds.turn job apply body bounds setting ⟨.new setting.position, 0⟩) s r t ∧
      (Rounds.drive job apply body bounds setting (job.remaining setting.position + job.slack + 1)
        ⟨.new setting.position, 0⟩).on s = (r, t) ∧ (job.presence.stance m depth).Fits t := by
  have hrounds : Rounds.RunTo job body bounds setting ⟨.new setting.position, 0⟩ :=
    ⟨(Ground.presence_turns hj.bears).new ha.sits, Location.le_refl _⟩
  obtain ⟨n, r, t, hn, hends, -, ht⟩ := exists_endsIn (fun _ hrounds => Rounds.turn_onward hj h ha hrounds) (fun _ => id)
    (Rounds.turn_onward hj h ha hrounds) hs
  refine ⟨n, r, t, hn, hends, ?_, ht⟩
  rw [Rounds.drive_eq_takeTurns]
  refine hends.takeTurns (Nat.le_trans hn ?_)
  show job.remaining setting.position + 1 ≤ job.remaining setting.position + job.slack + 1
  omega

end

/-! ## The loops of a parse -/

/-- The loops of a parse that tries expressions in some way come to an end. -/
structure Job.Halting (job : Job) (apply : Applier) : Prop where
  /-- Trying an expression leaves a session in which others can be tried, and gives a verdict in the text or
  sequences that were set aside there. -/
  kept : ∀ e setting s, job.presence.Ready e setting s → job.presence.Ready e setting ((apply e setting).on s).2 ∧
    job.presence.Comes (job.presence.Signal s.entered e setting.position) e setting.position ((apply e setting).on s).1
  /-- A sequence that is tried is a run in a good state, -/
  new : ∀ parts flatten setting s, job.presence.Ready (Run.new parts flatten setting 0).expr setting s →
    job.presence.On 0 (.new parts flatten setting 0) (.new parts flatten setting 0)
  /-- and so is every go at the parts of one that grows but the first. -/
  tail : ∀ run cursor tree s, job.presence.Ready run.expr (run.setting.moved cursor) s → job.presence.Grown run cursor tree →
    job.presence.On 1 (.new run.parts run.flatten (run.setting.moved cursor) 1)
      (.new run.parts run.flatten (run.setting.moved cursor) 1)
  /-- A sequence that was set aside can be resumed with a seed, -/
  aside : ∀ suspension e p o seed, job.presence.Awaits suspension e p o → seed.Lies (Position.Place job.input) →
    ∃ run works, suspension = .sequence run :: works ∧ job.presence.Resumes run (.settled (.matched seed)) ∧
      job.presence.Feeds run.expr run.setting.position works e p
  /-- and one that waits for it with what it comes to. -/
  waiting : ∀ e p run works e' p' a, job.presence.Feeds e p (.sequence run :: works) e' p' →
    job.presence.Comes (fun _ => True) e p a → job.presence.Resumes run a
  /-- A turn that a sequence goes on after does a part, or it takes input. -/
  turn : ∀ first run s further t, job.presence.Ready run.expr run.setting s → job.presence.On first run run →
    (run.turn job apply).on s = (.inr further, t) →
      further.done = run.done + 1 ∧ run.collected.cursor.offset ≤ further.collected.cursor.offset ∨
        further.done = run.done ∧ run.collected.cursor.offset < further.collected.cursor.offset
  /-- A sequence ends within as many turns as it has parts and there are characters left, and one. -/
  sequence : ∀ first run s, job.presence.Ready run.expr run.setting s → job.presence.On first run run →
    ∃ n r t, n ≤ run.parts.length + job.remaining run.collected.cursor + 1 ∧
      EndsIn (Run.turn job apply) n (run.turn job apply) s r t ∧ (run.drive job apply (run.fuel job)).on s = (r, t) ∧
      job.presence.Concludes first run r ∧ job.presence.Ready run.expr run.setting t
  /-- So does a sequence that is resumed; taking what it is resumed with is its first turn. -/
  resumed : ∀ run a s, job.presence.Ready run.expr run.setting s → job.presence.Resumes run a →
    ∃ n r t, n ≤ run.parts.length + job.remaining run.collected.cursor + 1 ∧
      EndsIn (Run.turn job apply) n (run.resumption job apply a) s r t ∧
      (run.resume job apply a).on s = (Run.ending job apply r).on t ∧
      job.presence.Concludes 0 { run with needsSeed := false } r ∧ job.presence.Ready run.expr run.setting t
  /-- A turn that a sequence grows by takes input. -/
  growing : ∀ run cursor tree s further t, job.presence.Ready run.expr (run.setting.moved cursor) s →
    job.presence.Grown run cursor tree → (run.growth job apply (cursor, tree)).on s = (.inr further, t) →
      cursor.offset < further.1.offset
  /-- A sequence that was set aside grows within as many turns as there are characters left, and one. -/
  growth : ∀ run s, job.presence.Ready run.expr run.setting s → job.presence.On 0 run run →
    run.parts[run.done]? = none → run.growing = true →
      ∃ n r t, n ≤ job.remaining run.collected.cursor + 1 ∧
        EndsIn (run.growth job apply) n (run.growth job apply (run.collected.cursor, run.collected.tree job.input)) s r t ∧
        (run.complete job apply).on s = (r, t) ∧ job.presence.Ready run.expr run.setting t
  /-- A turn that a repetition goes on after takes input. -/
  round : ∀ body bounds fallback setting rounds s further t,
    job.presence.Ready (.repetition body bounds fallback) setting s →
      job.presence.Turning body bounds setting.position rounds → setting.location ≤ rounds.collected.cursor.location →
        (rounds.turn job apply body bounds setting).on s = (.inr further, t) →
          rounds.collected.cursor.offset < further.collected.cursor.offset
  /-- A repetition ends within as many turns as there are characters left, and one. -/
  repetition : ∀ body bounds fallback setting s, job.presence.Ready (.repetition body bounds fallback) setting s →
    ∃ n r t, n ≤ job.remaining setting.position + 1 ∧
      EndsIn (Rounds.turn job apply body bounds setting) n
        (Rounds.turn job apply body bounds setting ⟨.new setting.position, 0⟩) s r t ∧
      (Rounds.drive job apply body bounds setting (job.remaining setting.position + job.slack + 1)
        ⟨.new setting.position, 0⟩).on s = (r, t) ∧
      job.presence.Ready (.repetition body bounds fallback) setting t

/-- In a job with its results in the text, loops come to an end however many levels of nesting are left. -/
theorem Job.Rooted.loops_end (hj : job.Rooted) (levels : Nat) : job.Halting (applyWithin job levels) := by
  have hC := Ground.presence_lawful hj.bears
  have hkept (m : Mark) (depth : Nat) := hC.kept levels m depth
  have hleft (run : Run) : run.left job + 1 ≤ run.parts.length + job.remaining run.collected.cursor + 1 := by
    unfold Run.left
    omega
  refine {
    kept := ?kept
    new := fun _ _ _ _ h => .new hC h.admits
    tail := fun _ _ _ _ h hg => .tail hC h.admits.has h.admits.mode hg
    aside := ?aside
    waiting := fun _ _ _ _ _ _ _ hfeeds hcame => hfeeds.resumes hC rfl hcame
    turn := ?turn
    sequence := ?sequence
    resumed := ?resumed
    growing := ?growing
    growth := ?growth
    round := ?round
    repetition := ?repetition }
  case kept =>
    intro e setting s h
    obtain ⟨hcame, ht⟩ := h.yields (hkept _ _ e setting h.admits)
    exact ⟨h.after ht, hcame⟩
  case aside =>
    rintro _ e p _ seed ⟨hon, hr, hd, hfeeds⟩ hseed
    refine ⟨_, _, rfl, .seed hon hr hd fun t ht => ?_, hfeeds⟩
    rcases ht with rfl | ⟨name, ht⟩
    · exact hseed
    · exact Grammar.lies_produce ht hseed
  case turn =>
    intro first run s further t h hon hturn
    obtain ⟨hnext, -⟩ := h.yields (Contract.turn_kept hC (hkept _ _) h.admits.behind hon)
    rw [hturn] at hnext
    obtain ⟨-, hfurther, hadvances⟩ := hnext
    exact hadvances.offset (hon.at_cursor hC) (hfurther.at_cursor hC)
  case sequence =>
    intro first run s h hon
    obtain ⟨n, r, t, hn, hends, hdrive, hr, ht⟩ := Run.drive_ends hj (hkept _ _) h.admits.behind hon h.fits
    exact ⟨n, r, t, Nat.le_trans hn (hleft run), hends, hdrive, hr, h.after ht⟩
  case resumed =>
    intro run a s h hresumes
    obtain ⟨n, r, t, hn, hends, hresume, hr, ht⟩ := Run.resume_ends hj (hkept _ _) h.admits.behind hresumes h.fits
    exact ⟨n, r, t, Nat.le_trans hn (hleft run), hends, hresume, hr, h.after ht⟩
  case growing =>
    intro run cursor tree s further t h hgrown hturn
    have hm : Mark.Behind s.entered cursor.location := h.admits.behind
    obtain ⟨hnext, -⟩ := h.yields (Contract.growth_kept hC (hkept _ _) h.admits.has h.admits.mode hm hgrown)
    rw [hturn] at hnext
    exact (Position.Sits.lt_iff hgrown.2.1 hnext.1.2.1).1 hnext.2
  case growth =>
    intro run s h hon hd hg
    obtain ⟨n, r, t, hn, hends, hcomplete, ht⟩ := Run.complete_ends hj (hkept _ _) h.admits.behind hon hd hg h.fits
    exact ⟨n, r, t, hn, hends, hcomplete, h.after ht⟩
  case round =>
    intro body bounds fallback setting rounds s further t h hturning hle hturn
    obtain ⟨hnext, -⟩ := h.yields (Contract.round_kept hC (hkept _ _) h.admits hturning hle)
    rw [hturn] at hnext
    exact (Position.Sits.lt_iff (hC.turns.cursor hturning) (hC.turns.cursor hnext.1)).1 hnext.2
  case repetition =>
    intro body bounds fallback setting s h
    obtain ⟨n, r, t, hn, hends, hdrive, ht⟩ := Rounds.drive_ends hj (hkept _ _) h.admits h.fits
    exact ⟨n, r, t, hn, hends, hdrive, h.after ht⟩

/-- Where leaves and fallbacks give what is in the text, every loop of a parse ends: a sequence takes no
more turns than it has parts and there are characters left where it begins or is resumed, and one; a
repetition, and a sequence that grows, no more than there are characters left, and one. For each turn that
a loop goes on after does a part or takes input. In the course of the parse nothing else is tried than what
is ready to be tried, and allowing loops more turns, or no more than that, does not change the parse. -/
theorem Job.Rooted.halting (hj : job.Rooted) {root : Expr} (hroot : job.grammar.Has root) :
    (∀ levels, job.Halting (applyWithin job levels)) ∧
      (∀ levels call, job.Applies root levels call → job.presence.Ready call.expr call.setting call.session) ∧
        ∀ slack, (job.allowing slack).run root = job.run root := by
  refine ⟨hj.loops_end, fun _ _ => hj.ready_of_applies hroot, fun slack => ?_⟩
  have hsame : (apply (job.allowing slack) root .start).on .start = (apply job root .start).on .start :=
    hj.allowing slack job.options.depthLimit (.start Position.sits_origin hroot)
  unfold Job.run
  rw [show (apply (job.allowing slack) root .start).run .start = (apply job root .start).run .start from hsame]
  rfl

/-! ## Checks -/

/-- Whether a tree that is no list stands at the beginning of the text. -/
def Tree.isAtOrigin (t : Tree) : Bool := t.items?.isNone && t.extent.start == .origin && t.extent.stop == .origin

/-- Whether an expression by itself is no pattern, no matcher from outside, and has no fallback with items
elsewhere than at the beginning of the text. -/
def Expr.isRooted : Expr → Bool
  | .pattern _ | .external _ => false
  | .repetition _ _ (some fallback) => fallback.items?.all (·.all Tree.isAtOrigin)
  | _ => true

theorem Tree.lies_of_isAtOrigin {input : List Char} {t : Tree} (h : t.isAtOrigin = true) : t.Lies (Position.Place input) := by
  unfold isAtOrigin at h
  simp only [Bool.and_eq_true, Option.isNone_iff_eq_none, beq_iff_eq] at h
  obtain ⟨⟨hitems, hstart⟩, hstop⟩ := h
  refine .intro (hstart ▸ Position.place_origin) (hstop ▸ Position.place_origin) fun items hi => ?_
  rw [hitems] at hi
  cases hi

/-- A job whose grammar passes the check is rooted, whatever the text. -/
theorem Job.rooted_of_check (h : job.grammar.passes Expr.isRooted = true) : job.Rooted where
  internal _ he := absurd (he.check h) Bool.false_ne_true
  anchored _ he := absurd (he.check h) Bool.false_ne_true
  fallbacks body bounds t he items hi item hm := by
    have hall : (t.items?.all (·.all Tree.isAtOrigin)) = true := he.check h
    rw [hi] at hall
    exact Tree.lies_of_isAtOrigin (List.all_eq_true.1 hall item hm)

namespace Grammar

/-- Chains of names, on one line or on several, to which one name after the other is added. A name that is
not marked is taken to be marked with nothing. -/
def ofChains : Grammar where
  start := "chain"
  rules := [
    ("chain", .choice [.sequence [.rule "chain", .literal ['.'], .rule "name"], .rule "name"]),
    ("name", .merge [.repetition (.literal ['x']) ⟨1, none⟩ none,
      .repetition (.literal ['!']) ⟨0, some 1⟩ (some (.list (.own (.empty .origin)) [.text (.own (.empty .origin)) []]))])]
  skipper := some (.choice [.literal [' '], .literal ['\r', '\n']])
  overrides := [("name", none)]
  productions := []
  kinds := .empty

/-- A chain of three names over two lines. -/
def chained : Job := .new ofChains (.rule "chain") .standard .nothing "x .xx!\r\n.x".toList

theorem halting_chained : chained.Rooted ∧ chained.grammar.Has (.rule "chain") ∧
    (chained.run (.rule "chain")).result.isOk = true ∧ (∀ levels, chained.Halting (applyWithin chained levels)) ∧
      (∀ levels call, chained.Applies (.rule "chain") levels call →
        chained.presence.Ready call.expr call.setting call.session) ∧
        ∀ slack, (chained.allowing slack).run (.rule "chain") = chained.run (.rule "chain") := by
  have hj : chained.Rooted := Job.rooted_of_check (by decide +kernel)
  exact ⟨hj, .start, by decide +kernel, Job.Rooted.halting hj .start⟩

/-! ## Fallbacks from elsewhere -/

/-- Stands for no `q`: a mark that claims the second line for its place. -/
def strayMark : Tree := .list (.own (.empty .origin)) [.text (.own (.empty ⟨1, 0⟩)) ['x']]

/-- A repetition of marks, each of which may be missing, and of what else may be missing. -/
def marks : Expr :=
  .merge [.repetition (.literal ['q']) ⟨0, some 1⟩ (some strayMark), .repetition (.literal ['z']) ⟨0, some 1⟩ none]

/-- The grammar of these. -/
def ofMarks : Grammar where
  start := "s"
  rules := [("s", .repetition marks ⟨0, none⟩ none)]
  skipper := none
  overrides := []
  productions := []
  kinds := .empty

/-- No text to read marks from. -/
def marked : Job := .new ofMarks (.rule "s") .standard .nothing []

/-- The items of a fallback fool the repetition: without any input left, it goes on after its first turn. -/
theorem turns_exceed_input : ofMarks.Has (.repetition marks ⟨0, none⟩ none) ∧ marked.remaining .origin = 0 ∧
    ¬ ∃ n r t, n ≤ marked.remaining .origin + 1 ∧
      EndsIn (Rounds.turn marked (applyWithin marked 8) marks ⟨0, none⟩ .start) n
        (Rounds.turn marked (applyWithin marked 8) marks ⟨0, none⟩ .start ⟨.new .origin, 0⟩) .start r t := by
  have honward : ((Rounds.turn marked (applyWithin marked 8) marks ⟨0, none⟩ .start
      ⟨.new .origin, 0⟩).on .start).1.isRight = true := by
    decide +kernel
  refine ⟨.body (show ofMarks.rule? "s" = some _ from rfl), rfl, ?_⟩
  rintro ⟨n, r, t, hn, hends⟩
  have hn : n ≤ 1 := hn
  cases hends with
  | last hon =>
    rw [hon] at honward
    cases honward
  | more _ hends => cases hends <;> omega

end Grammar

end Packrat

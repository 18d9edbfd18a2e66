/-
Memory is transparent to a steady parse: with it or without it, the same comes of a text, down to the
places of all results and the wording of failures. Every expression that is tried comes to what it comes
to without a memory, as long as the nesting stays within its limit. Left recursion outside of closed
cycles can make a difference.
-/
import Packrat.Proofs.Memory.Cycles
import Packrat.Proofs.Memory.Origins
import Packrat.Proofs.Peg.Conformance

namespace Packrat

open Filter Stance

theorem Attempt.Definite.awaiting {input : List Char} {a : Attempt} (h : a.Definite input) (job : Job) (q : Question) :
    a.awaiting job q = a := by
  unfold Attempt.awaiting
  split
  · exact h.elim
  · rfl

theorem settled_of_wrapAttempt {job : Job} {name : String} {a : Attempt} {v : Verdict}
    (h : wrapAttempt job name a = .settled v) : ∃ w, a = .settled w := by
  rcases a with w | (_ | suspension) | error
  · exact ⟨w, rfl⟩
  all_goals cases h

/-- Where a rule came to a verdict, one on its body is remembered. -/
theorem tryRule_remembers {job : Job} {levels : Nat} {name : String} {body : Expr} {setting : Setting} {s : Session}
    {v : Verdict} (hr : job.options.remember = true) (hb : job.grammar.rule? name = some body)
    (h : ((tryRule job (applyWithin job (levels + 1)) name setting).on s).1 = .settled v) :
    (((tryRule job (applyWithin job (levels + 1)) name setting).on s).2.memory.find?
      (.of body (job.within name setting))).isSome := by
  have hmemory {event : Event} (s : Session) : ((Eval.emit job event).on s).2.memory = s.memory := by
    rw [Eval.on_emit]
    split <;> rfl
  unfold tryRule at h ⊢
  simp only [hb, Eval.on_bind, Eval.on_pure, hmemory] at h ⊢
  obtain ⟨w, hw⟩ := settled_of_wrapAttempt h
  exact Option.isSome_iff_exists.2 ⟨w, @Call.find?_of_outcome ⟨body, job.within name setting, _⟩ job levels w hr hw⟩

/-- Rings when the nesting reaches its limit. -/
def Alarm.deep (limit : Nat) : Alarm where
  rung c := limit ≤ c.deepest
  kept hd _ h := Nat.le_trans h hd

/-- The stance of a parse that remembers what a parse without a memory comes to as well. -/
def Job.echoing (job : Job) (cycles : List Cycle) (mark : Mark) (depth : Nat) : Stance :=
  ⟨job, .deep job.options.depthLimit, job.Retains cycles, mark, depth⟩

section

variable {job : Job} {cycles : List Cycle} {mark : Mark} {depth levels : Nat} {e : Expr} {setting : Setting} {m : Mark}
  {a : Attempt}

/-- With one more level of nesting, an expression is what it is worked out to. -/
theorem applyWithin_tells (hn : ∀ rule, e = .rule rule → m ≠ some (rule, setting.location))
    (h : ∀ᶠ n in atTop, (evaluate job.forgetful (applyWithin job.forgetful n) e setting).Tells
      (m.inside e.reference? setting.location) a) :
    ∀ᶠ n in atTop, (applyWithin job.forgetful n e setting).Tells m a := by
  rw [← map_add_atTop_eq_nat 1]
  exact h.mono fun n htells => .remembering hn htells

/-- What an expression is worked out to is what it comes to without a memory. -/
theorem work_echoes (hj : job.Steady cycles)
    (h : ∀ mark, (job.echoing cycles mark (depth + 1)).Echoes cycles (applyWithin job levels))
    (hbodies : ∀ mark, ∀ r ∈ cycles, (job.echoing cycles mark (depth + 1)).EchoesBody r (applyWithin job levels)) :
    ((job.echoing cycles mark depth).inside e.reference? setting.location).Yields (job.Fair cycles [mark] e setting)
      (evaluate job (applyWithin job levels) e setting) fun a => a.Definite job.input ∧ job.Tells e setting a := by
  -- whichever rule was entered last without a memory, and whichever rule is around
  have hworked : ((job.echoing cycles mark depth).inside e.reference? setting.location).Yields
      (job.Fair cycles [mark] e setting) (evaluate job (applyWithin job levels) e setting) fun a =>
        ∀ i : Mark × Option String, job.Quiet i.1 e setting → a.Definite job.input ∧
          ∀ᶠ n in atTop, (evaluate job.forgetful (applyWithin job.forgetful n) e (setting.under i.2)).Tells
            (i.1.inside e.reference? setting.location) a := by
    refine .each (mark, none) (fun i => ?_) fun hf => hf.quiet mark (List.mem_singleton.2 rfl)
    refine Yields.guard (evaluate_mirrors i.2 hj (h _) (hbodies _) rfl) fun hf => ?_
    refine ⟨hf.1.outside, hf.1.reached, hf.1.sits, List.forall_mem_cons.2 ⟨?_, List.forall_mem_singleton.2 hf.2⟩⟩
    exact hf.1.quiet mark (List.mem_singleton.2 rfl)
  refine hworked.post fun a hf ha => ?_
  refine ⟨(ha (mark, none) (hf.quiet mark (List.mem_singleton.2 rfl))).1, fun m rule hm => ?_⟩
  refine applyWithin_tells (fun name he => ?_) (ha (m, rule) hm).2
  subst he
  exact hm.away

/-- With one more level of nesting, any expression echoes a parse without a memory. -/
theorem echoes_succ (hc : job.options.counting = true) (hj : job.Steady cycles)
    (hl : depth + (levels + 1) = job.options.depthLimit)
    (h : ∀ mark, (job.echoing cycles mark (depth + 1)).Echoes cycles (applyWithin job levels))
    (hbodies : ∀ mark, ∀ r ∈ cycles, (job.echoing cycles mark (depth + 1)).EchoesBody r (applyWithin job levels)) :
    (job.echoing cycles mark depth).Echoes cycles (applyWithin job (levels + 1)) := by
  intro e setting
  refine .remembering_leaves (M := fun a m => job.Retains cycles m ∧ (job.options.remember = true → ∀ v, a = .settled v →
      ∀ r ∈ cycles, e = .rule r.name → (m.find? (.of r.body (job.within r.name setting))).isSome))
    (Q := fun a => a.Definite job.input ∧ job.Tells e setting a) ?hit ?back ?work ?kept ?order ?result
  case hit =>
    rintro hf - m v hm hv
    exact hm.find hj hf hv
  case back =>
    refine .bind .reportReentry fun _ => .pure ?_
    rintro ⟨⟨hf, name, rfl, hm⟩, -⟩
    exact absurd hm (hf.quiet mark (List.mem_singleton.2 rfl)).away
  case work =>
    cases levels with
    | zero =>
      have hd : ∀ c : Counts, depth + 1 ≤ c.deepest → (Alarm.deep job.options.depthLimit).rung c := fun c h => hl ▸ h
      exact .too_deep hc hd ((Alarm.deep _).passage.evaluate ((Alarm.deep _).passage.applyWithin 0) _ _)
    | succ levels =>
      refine (Yields.leaves_on ((work_echoes hj h hbodies).guard And.left) fun s hr v ha r hmem he => ?_).narrow fun _ => And.left
      subst he
      exact tryRule_remembers hr (hj.closed r hmem).body ha
  case kept =>
    rintro hf hr v m ⟨hd, ht⟩ ⟨hm, hbacked⟩
    exact hm.insert_outside hj hf (hbacked hr v rfl) hd ht
  case order => exact fun _ _ _ _ _ hm => hm.1
  case result =>
    rintro - a ⟨hd, ht⟩
    rw [hd.awaiting]
    exact ⟨hd, ht⟩

/-- With one more level of nesting, the body of a cycle echoes a parse without a memory. -/
theorem echoesBody_succ (hc : job.options.counting = true) (hj : job.Steady cycles)
    (hl : depth + (levels + 1) = job.options.depthLimit)
    (h : (job.echoing cycles mark (depth + 1)).Echoes cycles (applyWithin job levels)) {r : Cycle} (hr : r ∈ cycles) :
    (job.echoing cycles mark depth).EchoesBody r (applyWithin job (levels + 1)) := by
  intro setting mode hrule hskipping hmark
  have hmark : mark = some (r.name, setting.location) := hmark
  have hn : ∀ name, r.body = .rule name → mark ≠ some (name, setting.location) := fun _ hb => nomatch hb
  have hmode (hm : job.grammar.Reaches (.rule r.name, mode)) : job.grammar.Mode setting.skipping := hskipping ▸ hm.has.2.1.skippingIn _
  have hin : job.skippingIn r.name setting.skipping = setting.skipping := hskipping ▸ Grammar.modeIn_modeIn
  refine .remembering_leaves (M := r.Closing job cycles setting) (Q := fun a => a.Definite job.input ∧
    ∀ᶠ n in atTop, (evaluate job.forgetful (applyWithin job.forgetful n) r.body setting).Tells mark a)
    ?hit ?back ?work ?kept ?order ?result
  case hit =>
    rintro ⟨hs, hm⟩ - m v hmem hv
    have := hmem.find_body hj hr hrule hs (hmode hm) hv
    rwa [← hmark] at this
  case back =>
    refine .bind .reportReentry fun _ => .pure ?_
    rintro ⟨⟨-, name, hb, hm⟩, -⟩
    exact absurd hm (hn name hb)
  case work =>
    refine .of_guard (Alarm.Persists.tryChoice (.applyWithin _)) fun hφ => ?_
    have he : r.Entered (job.echoing cycles mark (depth + 1)) setting mode := ⟨hmark, hrule, hskipping, hφ.1.1, hφ.1.2⟩
    cases levels with
    | zero =>
      have hd : ∀ c : Counts, depth + 1 ≤ c.deepest → (Alarm.deep job.options.depthLimit).rung c := fun c h => hl ▸ h
      exact .too_deep hc hd (Alarm.Persists.tryChoice (.applyWithin _))
    | succ levels => exact he.steps_close hj hr (fun _ => id) h (hj.closed r hr).recursive fun _ => id
  case kept =>
    rintro ⟨hs, hm⟩ - v m ⟨hd, ht⟩ hclosing
    have hv : job.Recalled cycles (.of r.body setting) v := by
      refine .body hr hs (hmode hm) hd ?_
      rw [Setting.under_eq hrule, ← hmark]
      exact applyWithin_tells hn ht
    -- a verdict on a recursive alternative may be ahead of the one on the body
    rcases hclosing with hm | ⟨-, -, before, s, w, hs, hne, hm, rfl⟩
    · exact hm.insert_body hj hr hv
    · exact hm.insert_both hj hr hs hne hin hv
  case order =>
    rintro - a m - hno (hm | ⟨⟨v, hv⟩, hrem, -⟩)
    · exact hm
    · exact absurd hv (hno hrem v)
  case result =>
    rintro - a ⟨hd, ht⟩
    rw [hd.awaiting]
    exact ⟨hd, applyWithin_tells hn ht⟩

/-- Whatever is tried echoes a parse without a memory, and so does the body of a cycle where the rule is
entered. -/
theorem applyWithin_echoes (hc : job.options.counting = true) (hj : job.Steady cycles) : ∀ (levels depth : Nat),
    depth + levels = job.options.depthLimit → ∀ mark,
      (job.echoing cycles mark depth).Echoes cycles (applyWithin job levels) ∧
        ∀ r ∈ cycles, (job.echoing cycles mark depth).EchoesBody r (applyWithin job levels) := by
  -- without levels left the alarm has rung; otherwise both parts rely on both one level deeper
  intro levels
  induction levels with
  | zero =>
    intro depth hl mark
    have hd : ∀ c : Counts, depth ≤ c.deepest → (Alarm.deep job.options.depthLimit).rung c := fun c h => hl ▸ h
    exact ⟨fun _ _ => .too_deep hc hd, fun _ _ _ _ _ _ _ => .too_deep hc hd⟩
  | succ levels ih =>
    intro depth hl mark
    have ih := ih (depth + 1) (by omega)
    exact ⟨echoes_succ hc hj hl (fun mark => (ih mark).1) fun mark => (ih mark).2, fun r hr =>
      echoesBody_succ hc hj hl (ih mark).1 hr⟩

/-! ## Parses -/

/-- Whether a parse is steady does not depend on what it remembers or counts. -/
theorem Job.Steady.remembering (hj : job.Steady cycles) (remember counting : Bool) :
    ({ job with options := { job.options with remember, counting } } : Job).Steady cycles where
  internal := hj.internal
  anchored := hj.anchored
  fallbacks := hj.fallbacks
  distinct := hj.distinct
  closed r hr := ⟨(hj.closed r hr).body, (hj.closed r hr).steps, (hj.closed r hr).recursive, (hj.closed r hr).grounded,
    (hj.closed r hr).bases, (hj.closed r hr).rest⟩
  bodies := hj.bodies
  apart := hj.apart
  others := hj.others

/-- A parse that stays clear of the depth limit comes to what one without a memory comes to. -/
theorem Job.Steady.tells (hj : job.Steady cycles) (hc : job.options.counting = true)
    (hd : ((apply job (.rule job.grammar.start) .start).on .start).2.counts.deepest < job.options.depthLimit) :
    ∀ᶠ n in atTop, (applyWithin job.forgetful n (.rule job.grammar.start) .start).Tells none
      ((apply job (.rule job.grammar.start) .start).on .start).1 := by
  have hechoes := (applyWithin_echoes hc hj job.options.depthLimit 0 (Nat.zero_add _) none).1
  have hfits : (job.echoing cycles none 0).Fits .start := ⟨.empty, rfl, rfl, fun _ => Nat.le_refl _⟩
  have hfair : job.Fair cycles [none] (.rule job.grammar.start) .start :=
    ⟨.start, .refl, Position.sits_origin, fun m hm => List.mem_singleton.1 hm ▸ .unmarked⟩
  rcases (hechoes _ _ .start).2 hfair hfits with hrung | ⟨⟨-, htells⟩, -⟩
  · exact absurd hd (Nat.not_lt.2 hrung)
  · exact htells none none .unmarked

end

/-- Memory is transparent to a steady parse. If the nesting stays within its limit both with a memory and
without, then both ways give the same result: the same tree, with the same places throughout, or the
same failure. -/
theorem Grammar.parse_transparent {g : Grammar} {cycles : List Cycle} {options : Options} {externals : Externals}
    {input : List Char} (hg : (Job.new g (.rule g.start) options externals input).Steady cycles)
    (hd : ∀ remember, (g.counts { options with remember } externals input).deepest < options.depthLimit) :
    (g.parse { options with remember := true } externals input).result =
      (g.parse { options with remember := false } externals input).result := by
  let job (remember : Bool) := Job.new g (.rule g.start) { options with remember, counting := true } externals input
  have htells (remember : Bool) : ∀ᶠ n in atTop, (applyWithin (job true).forgetful n (.rule g.start) .start).Tells none
      ((apply (job remember) (.rule g.start) .start).on .start).1 :=
    (hg.remembering remember true).tells rfl (hd remember)
  -- both runs come to what enough levels without a memory tell
  obtain ⟨n, hwith, hwithout⟩ := ((htells true).and (htells false)).exists
  rw [← g.parse_observed { options with remember := true } externals input true options.tracing,
    ← g.parse_observed { options with remember := false } externals input true options.tracing]
  exact congrArg (Job.resultOf (.rule g.start)) (hwith.unique hwithout)

namespace Grammar

/-- Sums of items, which group to the left. An item may be a sum in parentheses. -/
def ofNestedSums : Grammar where
  start := "sum"
  rules := [
    ("sum", .choice [.sequence [.rule "sum", .literal ['+'], .rule "item"], .rule "item"]),
    ("item", .choice [.literal ['x'], .sequence [.literal ['('], .rule "sum", .literal [')']]])]
  skipper := some (.literal [' '])
  overrides := []
  productions := []
  kinds := .empty

/-- The cycle in it. -/
def nestedSums : Cycle := ⟨"sum", [.sequence [.rule "sum", .literal ['+'], .rule "item"]], [.rule "item"]⟩

theorem steady_ofNestedSums {root : Expr} {options : Options} {externals : Externals} {input : List Char} :
    (Job.new ofNestedSums root options externals input).Steady [nestedSums] :=
  Job.steady_of_check (fun _ hr => List.mem_singleton.1 hr ▸ rfl)
    (show ofNestedSums.isSteady [nestedSums] = true by decide +kernel)

theorem parse_transparent_nestedSums :
    (ofNestedSums.parse ⟨true, 1024, true, false⟩ .nothing "(x + x)+ x".toList).result =
      (ofNestedSums.parse ⟨false, 1024, true, false⟩ .nothing "(x + x)+ x".toList).result :=
  @parse_transparent _ _ .standard _ _ steady_ofNestedSums (by decide +kernel)

/-- The alternative `r 't'` of the rule `r` occurs in the rule `s` as well. -/
def borrowedStep : List Definition := [
  .rule "r" (.choice [.sequence [.rule "r", .literal ['t']], .literal ['x']]),
  .rule "s" (.choice [.sequence [.rule "r", .literal ['v']],
    .sequence [.sequence [.rule "r", .literal ['t']], .literal ['u']]]),
  .start "s"]

/-- The verdict on it that `r` leaves behind, grown over all that follows, is not what `s` comes to by
itself. -/
theorem parse_not_transparent : ∃ g, ofDefinitions borrowedStep = .ok g ∧ (∀ key, ¬ g.Has (.external key)) ∧
    (∀ remember, (g.counts ⟨remember, 1024, true, false⟩ .nothing "xttu".toList).deepest < 1024) ∧
      (g.parse ⟨true, 1024, true, false⟩ .nothing "xttu".toList).result.isOk = true ∧
      (g.parse ⟨false, 1024, true, false⟩ .nothing "xttu".toList).result.isOk = false := by
  refine ⟨_, rfl, ?_, by decide +kernel, by decide +kernel, by decide +kernel⟩
  exact (textual_of_check (by decide +kernel)).internal

end Grammar

end Packrat

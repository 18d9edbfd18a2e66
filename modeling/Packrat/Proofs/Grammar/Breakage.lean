/-
What a parse can find wrong with its grammar. Wherever expressions of a grammar are tried that defines
all rules it refers to, and suspended work goes on with them, nothing is found but results that do not
fit the production of their rule. A grammar that is built from definitions is such a grammar, so with
productions of one field its parses find nothing wrong at all.
-/
import Packrat.Parse.Answer
import Packrat.Parse.Matcher
import Packrat.Proofs.Grammar.Modes
import Packrat.Proofs.Session.Logic

namespace Packrat

/-! ## Misfits -/

namespace Grammar

/-- The error says that a result does not have as many items as the production of its rule has fields, which are
not one alone. -/
def Misfit (g : Grammar) (error : GrammarError) : Prop :=
  ∃ rule production found, g.production? rule = some production ∧ production.fields.length ≠ 1 ∧
    found ≠ production.fields.length ∧ error = .wrongFieldCount rule production.fields.length found

/-- Every rule that the grammar refers to is defined. -/
def Defined (g : Grammar) : Prop := ∀ name, g.Has (.rule name) → (g.rule? name).isSome = true

variable {g : Grammar}

theorem misfit_of_produce {rule : String} {t : Tree} {error : GrammarError} (h : g.produce rule t = .error error) :
    g.Misfit error := by
  unfold produce at h
  split at h
  · next production hp =>
    unfold Production.node at h
    split at h
    · cases h
    · next hfields =>
      simp only at h
      split at h
      · cases h
      · next hcount =>
        cases h
        have hone : production.fields.length ≠ 1 := fun hl => by
          obtain ⟨field, hf⟩ := List.length_eq_one_iff.1 hl
          exact hfields field hf
        refine ⟨rule, production, _, hp, hone, ?_, rfl⟩
        cases hi : t.items? with
        | none => exact hone.symm
        | some items =>
          rw [hi] at hcount
          exact hcount
  · cases h

end Grammar

/-! ## Closed work -/

/-- The run is of parts of the grammar, under one of its ways of skipping. -/
def Run.Closed (g : Grammar) (run : Run) : Prop := (∀ part ∈ run.parts, g.Has part) ∧ g.Mode run.setting.skipping

/-- The work goes on with nothing but expressions of the grammar. -/
def Waiting.Closed (g : Grammar) : Waiting → Prop
  | .sequence run => run.Closed g
  | .memory _ | .wrapping _ => True

/-- What is suspended goes on with nothing but expressions of the grammar, and what broke the parse is a misfit. -/
def Attempt.Closed (g : Grammar) : Attempt → Prop
  | .settled _ | .recursion none => True
  | .recursion (some suspension) => ∀ work ∈ suspension, work.Closed g
  | .broken error => g.Misfit error

/-- The result of the step has `Q`, whatever the session. -/
def Eval.Always {α : Type} (x : Eval α) (Q : α → Prop) : Prop := ∀ s, Q (x.on s).1

namespace Eval.Always

variable {α β : Type} {x : Eval α} {f : α → Eval β} {Q : α → Prop} {R : β → Prop}

theorem pure {a : α} (h : Q a) : Always (Pure.pure a) Q := fun _ => h

theorem bind (hx : Always x Q) (hf : ∀ a, Q a → Always (f a) R) : Always (x >>= f) R := fun s => hf _ (hx s) _

theorem of_bind (hf : ∀ a, Always (f a) R) : Always (x >>= f) R := fun _ => hf _ _

end Eval.Always

open Eval

variable {job : Job} {apply : Applier} {run : Run} {a : Attempt} {setting : Setting}

/-- Of expressions of the grammar nothing else comes. -/
def Applier.Closed (apply : Applier) (g : Grammar) : Prop :=
  ∀ e setting, g.Has e → g.Mode setting.skipping → Always (apply e setting) (Attempt.Closed g)

theorem Attempt.Closed.append {suspension : Suspension} {work : Waiting}
    (h : (Attempt.recursion (some suspension)).Closed job.grammar) (hw : work.Closed job.grammar) :
    (Attempt.recursion (some (suspension ++ [work]))).Closed job.grammar := fun w hm =>
  (List.mem_append.1 hm).elim (h w) fun hm => List.mem_singleton.1 hm ▸ hw

/-- What a run comes to that is done with some parts, or what comes of it otherwise. -/
def Run.KeepsClosed (g : Grammar) : Except Attempt Run → Prop
  | .ok run => run.Closed g
  | .error a => a.Closed g

/-! ## Sequences -/

theorem skipBetween_closed (h : apply.Closed job.grammar) (hm : job.grammar.Mode setting.skipping) {acc : Accumulator} :
    Always (skipBetween job apply setting acc) fun r => ∀ error, r = .error error → job.grammar.Misfit error := by
  unfold skipBetween
  split
  · exact .pure nofun
  · next skipper hs =>
    refine .bind (h _ _ (hm.has hs) hm) fun a ha => ?_
    split
    · refine .pure fun error he => ?_
      cases he
      exact ha
    · exact .pure nofun

theorem Run.absorb_closed (h : apply.Closed job.grammar) (hrun : run.Closed job.grammar) (ha : a.Closed job.grammar) :
    Always (run.absorb job apply a) (Run.KeepsClosed job.grammar) := by
  rcases a with (t | why | span | failure) | (_ | suspension) | error
  · exact .pure hrun
  · exact .pure hrun
  · exact .pure hrun
  · refine .bind (skipBetween_closed h hrun.2) fun r hr => ?_
    rcases r with error | (_ | acc)
    · exact .pure (hr error rfl)
    · exact .pure trivial
    · exact .pure hrun
  · exact .pure trivial
  · exact .pure (ha.append hrun)
  · exact .pure ha

theorem Run.drive_closed (h : apply.Closed job.grammar) : ∀ (fuel : Nat) {run : Run}, run.Closed job.grammar →
    Always (run.drive job apply fuel) (Run.KeepsClosed job.grammar)
  | 0, _, _ => .pure trivial
  | fuel + 1, run, hrun => by
    unfold Run.drive
    split
    · exact .pure hrun
    · next part hpart =>
      refine .of_bind fun s => ?_
      split
      · refine .of_bind fun _ => .pure fun work hw => ?_
        rw [List.mem_singleton.1 hw]
        exact hrun
      · refine .bind (h _ _ (hrun.1 _ (List.mem_of_getElem? hpart)) hrun.2) fun a ha => ?_
        refine .bind (Run.absorb_closed h hrun ha) fun r hr => ?_
        cases r with
        | ok further => exact drive_closed h fuel hr
        | error attempt => exact .pure hr

theorem Run.tail_closed (h : apply.Closed job.grammar) (hrun : run.Closed job.grammar) (cursor : Position) :
    Always (run.tail job apply cursor) (Attempt.Closed job.grammar) := by
  have hfurther : Run.Closed job.grammar (.new run.parts run.flatten (run.setting.moved cursor) 1) := hrun
  refine .bind (Run.drive_closed h _ hfurther) fun r hr => ?_
  cases r with
  | ok further => exact .pure trivial
  | error attempt => exact .pure hr

theorem Run.extend_closed (h : apply.Closed job.grammar) (hrun : run.Closed job.grammar) : ∀ (fuel : Nat)
    (cursor : Position) (tree : Tree), Always (run.extend job apply fuel cursor tree) (Attempt.Closed job.grammar)
  | 0, _, _ => .pure trivial
  | fuel + 1, cursor, tree => by
    unfold Run.extend
    split
    · exact .pure trivial
    · refine .bind (Run.tail_closed h hrun cursor) fun a ha => ?_
      split
      · show Always (if _ then _ else _) _
        split
        · exact .pure trivial
        · exact .of_bind fun _ => .of_bind fun _ => extend_closed h hrun fuel _ _
      · exact .pure ha
      · exact .pure trivial

theorem Run.finish_closed (h : apply.Closed job.grammar) (hrun : run.Closed job.grammar) :
    Always (run.finish job apply) (Attempt.Closed job.grammar) := by
  refine .bind (Run.drive_closed h _ hrun) fun r hr => ?_
  cases r with
  | ok further =>
    show Always (if further.growing then _ else _) _
    split
    · exact Run.extend_closed h hr _ _ _
    · exact .pure trivial
  | error attempt => exact .pure hr

/-! ## Suspended work and choices -/

theorem wrapAttempt_closed {rule : String} (ha : a.Closed job.grammar) : (wrapAttempt job rule a).Closed job.grammar := by
  unfold wrapAttempt
  split
  · split
    · trivial
    · next he => exact Grammar.misfit_of_produce he
  · exact ha.append trivial
  · exact ha

theorem Run.seeded_closed (ha : a.Closed job.grammar) : (run.seeded job a).Closed job.grammar := by
  unfold Run.seeded
  split
  · split
    · split
      · trivial
      · next he => exact Grammar.misfit_of_produce he
    · trivial
  · exact ha

theorem Run.resume_closed (h : apply.Closed job.grammar) (hrun : run.Closed job.grammar) (ha : a.Closed job.grammar) :
    Always (run.resume job apply a) (Attempt.Closed job.grammar) := by
  have hgiven : (if run.needsSeed then run.seeded job a else a).Closed job.grammar := by
    split
    · exact Run.seeded_closed ha
    · exact ha
  have hready : Run.Closed job.grammar { run with needsSeed := false } := hrun
  refine .bind (Run.absorb_closed h hready hgiven) fun r hr => ?_
  cases r with
  | ok further => exact Run.finish_closed h hr
  | error attempt => exact .pure hr

theorem remember_closed {q : Question} (ha : a.Closed job.grammar) :
    Always (Eval.remember job q a) (Attempt.Closed job.grammar) := by
  unfold Eval.remember
  split
  · split
    · exact .of_bind fun _ => .pure trivial
    · exact .pure (ha.append trivial)
    · exact .pure trivial
    · exact .pure ha
  · exact .pure ha

theorem Suspension.resume_closed (h : apply.Closed job.grammar) : ∀ {suspension : Suspension} {a : Attempt},
    (∀ work ∈ suspension, work.Closed job.grammar) → a.Closed job.grammar →
      Always (Suspension.resume job apply suspension a) (Attempt.Closed job.grammar)
  | [], _, _, ha => .pure ha
  | work :: others, a, hs, ha => by
    have hothers : ∀ w ∈ others, w.Closed job.grammar := fun w hw => hs w (List.mem_cons_of_mem _ hw)
    unfold Suspension.resume
    refine .bind (Q := Attempt.Closed job.grammar) ?_ fun b hb => ?_
    · cases work with
      | sequence run => exact Run.resume_closed h (hs _ List.mem_cons_self) ha
      | memory q => exact remember_closed ha
      | wrapping rule => exact .pure (wrapAttempt_closed ha)
    · split
      · exact .pure fun w hw => (List.mem_append.1 hw).elim (hb w) (hothers w)
      · exact resume_closed h hothers hb

theorem plantSeed_closed (h : apply.Closed job.grammar) {suspension : Suspension} {seed : Tree}
    (hs : ∀ work ∈ suspension, work.Closed job.grammar) :
    Always (plantSeed job apply suspension seed) (Attempt.Closed job.grammar) := by
  refine .of_bind fun _ => .of_bind fun _ => .of_bind fun _ => ?_
  refine .bind (Suspension.resume_closed h hs (a := .settled (.matched seed)) trivial) fun b hb => ?_
  split
  · exact .pure trivial
  · exact .pure trivial
  · exact .pure hb

theorem tryChoice_closed (h : apply.Closed job.grammar) (hm : job.grammar.Mode setting.skipping) :
    ∀ {alternatives : List Expr} {tried : Tried}, (∀ e ∈ alternatives, job.grammar.Has e) →
      (∀ suspension, tried.recursion = some (some suspension) → ∀ work ∈ suspension, work.Closed job.grammar) →
        Always (tryChoice job apply setting alternatives tried) (Attempt.Closed job.grammar)
  | [], tried, _, ht => by
    refine .pure ?_
    unfold Tried.exhausted
    split
    · trivial
    · next suspension _ hr =>
      cases suspension with
      | none => trivial
      | some suspension => exact ht suspension hr
    · trivial
  | alternative :: others, tried, hhas, ht => by
    have hothers : ∀ e ∈ others, job.grammar.Has e := fun e he => hhas e (List.mem_cons_of_mem _ he)
    unfold tryChoice
    refine .bind (h _ _ (hhas _ List.mem_cons_self) hm) fun a ha => ?_
    split
    · split
      · next suspension hr => exact plantSeed_closed h (ht suspension hr)
      · exact .pure trivial
    · refine .of_bind fun _ => .of_bind fun _ => tryChoice_closed h hm hothers ?_
      unfold Tried.failed
      split <;> exact ht
    · refine tryChoice_closed h hm hothers fun suspension hr => ?_
      cases hr
      exact ha
    · exact .pure ha

/-! ## Expressions -/

theorem Rounds.drive_closed (h : apply.Closed job.grammar) {body : Expr} (hhas : job.grammar.Has body) {bounds : Bounds}
    (hm : job.grammar.Mode setting.skipping) : ∀ (fuel : Nat) (rounds : Rounds),
      Always (rounds.drive job apply body bounds setting fuel) fun r => ∀ a, r = .error a → a.Closed job.grammar
  | 0, _ => .pure nofun
  | fuel + 1, rounds => by
    unfold Rounds.drive
    show Always (if _ then _ else _) _
    split
    · exact .pure nofun
    · refine .bind (h _ _ hhas hm) fun a ha => ?_
      rcases a with (t | (_ | _ | _) | span | failure) | suspension | error
      · show Always (if _ then _ else _) _
        split
        · exact .pure nofun
        · exact drive_closed h hhas hm fuel _
      · exact .pure nofun
      · exact .pure fun _ he => Except.error.inj he ▸ trivial
      · exact .pure fun _ he => Except.error.inj he ▸ trivial
      · show Always (if _ then _ else _) _
        split
        · exact .pure nofun
        · exact drive_closed h hhas hm fuel _
      · refine .bind (skipBetween_closed h hm) fun r hr => ?_
        rcases r with error | (_ | acc)
        · exact .pure fun _ he => Except.error.inj he ▸ hr error rfl
        · exact .pure nofun
        · exact drive_closed h hhas hm fuel _
      · exact .pure fun _ he => Except.error.inj he ▸ trivial
      · exact .pure fun _ he => Except.error.inj he ▸ ha

theorem tryRepetition_closed (h : apply.Closed job.grammar) {body : Expr} (hhas : job.grammar.Has body) {bounds : Bounds}
    {fallback : Option Tree} (hm : job.grammar.Mode setting.skipping) :
    Always (tryRepetition job apply body bounds fallback setting) (Attempt.Closed job.grammar) := by
  refine .bind (Rounds.drive_closed h hhas hm _ _) fun r hr => ?_
  cases r with
  | ok rounds => exact .pure trivial
  | error a => exact .pure (hr a rfl)

theorem evaluate_closed (hdefined : job.grammar.Defined) (h : apply.Closed job.grammar) {e : Expr}
    (hhas : job.grammar.Has e) (hm : job.grammar.Mode setting.skipping) :
    Always (evaluate job apply e setting) (Attempt.Closed job.grammar) := by
  have hpart {part : Expr} (hp : part ∈ e.parts) : job.grammar.Has part := hhas.part hp
  cases e with
  | literal | pattern | external => exact .pure trivial
  | rule name =>
    show Always (tryRule job apply name setting) _
    unfold tryRule
    obtain ⟨body, hbody⟩ := Option.isSome_iff_exists.1 (hdefined name hhas)
    rw [hbody]
    refine .of_bind fun _ => .of_bind fun _ => .bind (h _ _ (.body hbody) (hm.skippingIn name)) fun a ha => ?_
    exact .of_bind fun _ => .pure (wrapAttempt_closed ha)
  | sequence parts | merge parts => exact Run.finish_closed h ⟨fun _ => hpart, hm⟩
  | choice alternatives => exact tryChoice_closed h hm (fun _ => hpart) nofun
  | repetition body bounds fallback => exact tryRepetition_closed h (hpart (List.mem_singleton.2 rfl)) hm
  | ahead body =>
    refine .bind (h _ _ (hpart (List.mem_singleton.2 rfl)) hm) fun a ha => .pure ?_
    rcases a with v | suspension | error
    · unfold aheadAttempt
      simp only
      split <;> trivial
    · trivial
    · exact ha
  | notAhead body =>
    refine .bind (h _ _ (hpart (List.mem_singleton.2 rfl)) hm) fun a ha => .pure ?_
    rcases a with v | suspension | error
    · unfold notAheadAttempt
      simp only
      split <;> trivial
    · trivial
    · exact ha
  | omission body =>
    refine .bind (h _ _ (hpart (List.mem_singleton.2 rfl)) hm) fun a ha => .pure ?_
    rcases a with (t | (_ | _ | _) | span | failure) | suspension | error
    case broken => exact ha
    all_goals trivial

/-- Where all rules are defined, nothing but misfits breaks a parse. -/
theorem applyWithin_closed (hdefined : job.grammar.Defined) : ∀ levels : Nat, (applyWithin job levels).Closed job.grammar
  | 0 => fun _ _ _ _ => .pure trivial
  | levels + 1 => fun e setting hhas hm => by
    refine .of_bind fun found => ?_
    split
    · exact .pure trivial
    · refine .of_bind fun s => ?_
      split
      · exact .of_bind fun _ => .pure trivial
      · refine .bind (Q := Attempt.Closed job.grammar) (fun s => ?_) fun a ha => remember_closed ha
        exact evaluate_closed hdefined (applyWithin_closed hdefined levels) hhas hm _

namespace Grammar

/-- A parse by a grammar that definitions give finds no rule undefined. All that it can find wrong with the
grammar is that a result does not fit a production, and not even that if every production has one field. -/
theorem parse_misfits {definitions : List Definition} {engine : Regex.Engine} {g : Grammar}
    (hg : ofDefinitions definitions engine = .ok g) (options : Options) (externals : Externals) (input : List Char) :
    (∀ name, (g.parse options externals input).result ≠ .error (.grammar (.unknownRule name))) ∧
      (∀ error, (g.parse options externals input).result = .error (.grammar error) → g.Misfit error) ∧
        ((∀ rule production, g.production? rule = some production → production.fields.length = 1) →
          ∀ error, (g.parse options externals input).result ≠ .error (.grammar error)) := by
  let job := Job.new g (.rule g.start) options externals input
  have hclosed : ((apply job (.rule g.start) .start).on .start).1.Closed g :=
    @applyWithin_closed job (fun _ => defined_of_built hg) _ _ _ .start .standard _
  have hmisfit (error : GrammarError) (he : (g.parse options externals input).result = .error (.grammar error)) :
      g.Misfit error := by
    have he : Job.resultOf (.rule g.start) ((apply job (.rule g.start) .start).on .start).1 = .error (.grammar error) := he
    generalize ((apply job (.rule g.start) .start).on .start).1 = a at hclosed he
    rcases a with (t | why | span | failure) | suspension | found <;> cases he
    exact hclosed
  refine ⟨fun name he => ?_, hmisfit, fun hone error he => ?_⟩
  · obtain ⟨_, _, _, _, _, _, h⟩ := hmisfit _ he
    cases h
  · obtain ⟨rule, production, _, hp, hmany, _, _⟩ := hmisfit _ he
    exact hmany (hone rule production hp)

/-- Sums of numbers as nodes with the given fields. Blanks are skipped, but not within numbers. -/
def sumsWithFields (fields : List String) : List Definition := [
  .kind "sum" none,
  .rule "sum" (.choice [.sequence [.rule "sum", .omission (.literal ['+']), .rule "number"], .rule "number"]),
  .production "sum" fields,
  .rule "number" (.repetition (.literal ['1']) ⟨1, none⟩ none),
  .override "number" none,
  .skipper (.literal [' ']),
  .start "sum"]

/-- Without fields the node has one field for the whole. With two fields a number of one digit has too few items. -/
theorem parse_misfits_sums :
    (∃ g, ofDefinitions (sumsWithFields []) = .ok g ∧
      ∀ input error, (g.parse .standard .nothing input).result ≠ .error (.grammar error)) ∧
      ∃ g error, ofDefinitions (sumsWithFields ["left", "right"]) = .ok g ∧
        (g.parse .standard .nothing ['1', '1', '+', ' ', '1', '1']).result.isOk = true ∧
          (g.parse .standard .nothing ['1']).result = .error (.grammar error) ∧
            g.Misfit error ∧ error = .wrongFieldCount "sum" 2 1 := by
  constructor
  · refine ⟨_, rfl, fun input => (@parse_misfits (sumsWithFields []) _ _ rfl _ _ _).2.2 fun rule production hp => ?_⟩
    have hmem : (rule, production) ∈ [("sum", Production.new ["sum"] [])] := mem_of_lookup hp
    cases List.mem_singleton.1 hmem
    rfl
  · obtain ⟨g, hg, hok, hbroken⟩ : ∃ g, ofDefinitions (sumsWithFields ["left", "right"]) = .ok g ∧
        (g.parse .standard .nothing ['1', '1', '+', ' ', '1', '1']).result.isOk = true ∧
          (match (g.parse .standard .nothing ['1']).result with
            | .error (.grammar error) => error == .wrongFieldCount "sum" 2 1
            | _ => false) = true := ⟨_, rfl, by decide +kernel, by decide +kernel⟩
    split at hbroken
    · next error herror => exact ⟨g, error, hg, hok, herror, (parse_misfits hg _ _ _).2.1 _ herror, eq_of_beq hbroken⟩
    · cases hbroken

end Grammar

end Packrat

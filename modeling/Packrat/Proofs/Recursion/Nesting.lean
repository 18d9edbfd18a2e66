/-
How deep nesting goes. In a grammar in which no expression asks for itself again, a bound for the depth
can be told beforehand, whatever the text and the options: no rule comes back to itself, so every
expression that is tried is asked for by the one around it. A skipper that skips inside itself asks for
itself, so with one that is a repetition or a sequence nesting can go to any depth.
-/
import Packrat.Parse.Matcher
import Packrat.Proofs.Memory.Transparency
import Packrat.Proofs.Session.Calls

namespace Packrat

open Relation

/-! ## Any ground -/

theorem Tree.lies_everywhere (t : Tree) : t.Lies fun _ => True :=
  .intro trivial trivial fun _ _ item _ => lies_everywhere item
termination_by sizeOf t
decreasing_by
  next items hi hm =>
  cases t with
  | list place items' =>
    cases hi
    have := List.sizeOf_lt_of_mem hm
    simp only [Tree.list.sizeOf_spec]
    omega
  | text | found | node => cases hi

theorem Attempt.firm_all {input : List Char} {a : Attempt} :
    a.Firm (Ground.all input) ↔ ∀ suspension, a ≠ .recursion suspension := by
  rcases a with (t | why | span | failure) | suspension | error
  · exact ⟨fun _ => nofun, fun _ => t.lies_everywhere⟩
  · exact ⟨fun _ => nofun, fun _ => trivial⟩
  · exact ⟨fun _ => nofun, fun _ => trivial⟩
  · exact ⟨fun _ => nofun, fun _ => trivial⟩
  · exact ⟨False.elim, fun h => absurd rfl (h suspension)⟩
  · exact ⟨fun _ => nofun, fun _ => trivial⟩

theorem Ground.bears_all (job : Job) : (Ground.all job.input).Bears job where
  literal _ _ _ := Attempt.firm_all.2 nofun
  pattern _ _ := Attempt.firm_all.2 nofun
  external _ _ := Attempt.firm_all.2 nofun
  fallback _ _ := Tree.lies_everywhere _

/-! ## Marks -/

/-- The body of the rule entered last leads to the expression without another rule in between. -/
def Grammar.Under (g : Grammar) (m : Mark) (node : Expr × SkipMode) : Prop :=
  ∀ r l, m = some (r, l) → ∃ body, g.rule? r = some body ∧ g.modeIn r node.2 = node.2 ∧
    ReflTransGen g.Asks (body, node.2) node

namespace Grammar.Under

variable {g : Grammar} {m : Mark} {e : Expr} {mode : SkipMode} {next : Expr × SkipMode} {n : Nat}

theorem start {node : Expr × SkipMode} : g.Under none node := nofun

/-- What an expression asks for is under the mark that the expression sets. -/
theorem inside (h : g.Under m (e, mode)) (hasks : g.Asks (e, mode) next) (location : Location) :
    g.Under (m.inside e.reference? location) next := by
  intro r l hm
  cases hasks with
  | @part _ part _ hp =>
    have hn : e.reference? = none := by cases e <;> first | rfl | cases hp
    rw [hn] at hm
    obtain ⟨body, hb, hmode, hleads⟩ := h r l hm
    exact ⟨body, hb, hmode, hleads.tail (.part hp)⟩
  | @body name body _ hb =>
    cases hm
    exact ⟨body, hb, modeIn_modeIn, .refl⟩
  | @skipper _ s _ hskips hs =>
    have hn : e.reference? = none := by cases e <;> first | rfl | cases hskips
    rw [hn] at hm
    obtain ⟨body, hb, hmode, hleads⟩ := h r l hm
    exact ⟨body, hb, hmode, hleads.tail (.skipper hskips hs)⟩

/-- An expression that does not ask for itself is not the rule entered last. -/
theorem not_reenters {s : Session} (h : g.Under s.entered (e, mode)) (hheight : g.Height n (e, mode))
    (location : Location) : s.reenters e location = false := by
  cases e with
  | rule name =>
    show (s.entered == some (name, location)) = false
    rw [beq_eq_false_iff_ne]
    intro hm
    obtain ⟨body, hb, hmode, hleads⟩ := h name location hm
    have hasks : g.Asks (.rule name, mode) (body, mode) := by
      have := @Asks.body g name body mode hb
      rwa [show g.modeIn name mode = mode from hmode] at this
    exact hheight.not_cycle (TransGen.head' hasks hleads)
  | _ => rfl

end Grammar.Under

/-! ## Depth -/

/-- A session under a mark at a depth, in which the nesting never went beyond some bound. -/
structure Session.Within (s : Session) (m : Mark) (depth bound : Nat) : Prop where
  mark : s.entered = m
  depth : s.depth = depth
  deepest : s.counts.deepest ≤ bound

namespace Session.Within

variable {s t : Session} {m : Mark} {depth bound : Nat} {job : Job} {rule : Option String} {location : Location}

theorem near (h : s.Within m depth bound) (hn : s.Near t) : t.Within m depth bound :=
  ⟨hn.entered.trans h.mark, hn.depth.trans h.depth, hn.deepest.symm ▸ h.deepest⟩

theorem deeper (h : s.Within m depth bound) (job : Job) (rule : Option String) (location : Location) (hb : depth < bound) :
    ((s.missed job).deeper job rule location).Within (m.inside rule location) (depth + 1) bound := by
  refine ⟨congrArg (Mark.inside · rule location) h.mark, congrArg (· + 1) h.depth, ?_⟩
  have hmissed : (s.missed job).counts.deepest = s.counts.deepest := by
    unfold Session.missed
    simp only
    split <;> rfl
  unfold Session.deeper
  simp only
  split
  · exact Nat.max_le.2 ⟨hmissed ▸ h.deepest, h.depth ▸ hb⟩
  · exact hmissed ▸ h.deepest

theorem back (ht : t.Within (m.inside rule location) (depth + 1) bound) (h : s.entered = m) :
    (t.back rule s).Within m depth bound := by
  refine ⟨?_, ?_, ht.deepest⟩
  · show (if rule.isSome then s.entered else t.entered) = m
    cases rule with
    | none => exact ht.mark
    | some rule => exact h
  · show t.depth - 1 = depth
    rw [ht.depth]
    rfl

end Session.Within

section

variable {job : Job} {e : Expr} {setting : Setting} {m : Mark} {depth n levels bound : Nat} {s : Session}

/-- A way to try expressions that, as long as these have less than some height, never comes back to a rule
and stays within bounds. -/
def Applier.Stays (apply : Applier) (job : Job) (n : Nat) : Prop :=
  ∀ {e : Expr} {setting : Setting} {m : Mark} {depth bound : Nat} {s : Session},
    job.grammar.Reaches (e, setting.skipping) → job.grammar.Height n (e, setting.skipping) →
      job.grammar.Under m (e, setting.skipping) → depth + n ≤ bound → s.Within m depth bound →
        (∀ suspension, ((apply e setting).on s).1 ≠ .recursion suspension) ∧
          ((apply e setting).on s).2.Within m depth bound

/-- Such a way to try expressions keeps what an expression of the next height tries within bounds. -/
theorem Applier.Stays.obeys {apply : Applier} (h : apply.Stays job n)
    (hp : ∀ e setting, Alarm.none.Persists (apply e setting)) (hr : job.grammar.Reaches (e, setting.skipping))
    (hheight : job.grammar.Height (n + 1) (e, setting.skipping)) (hu : job.grammar.Under m (e, setting.skipping))
    (hb : depth + n ≤ bound) (location : Location) :
    apply.Obeys job .none (job.Asked (Ground.all job.input) True (e, setting.skipping)) (Attempt.Firm (Ground.all job.input))
      (·.Within (m.inside e.reference? location) depth bound) where
  persists := hp
  near hn hs := hs.near hn
  signals hA hs hre := by
    have hunder := hu.inside hA.1 location
    rw [← hs.mark] at hunder
    exact absurd hre (by rw [hunder.not_reenters (hheight _ hA.1)]; exact Bool.false_ne_true)
  attempt hA hs := by
    obtain ⟨hfirm, hwithin⟩ := h (ReflTransGen.tail hr hA.1) (hheight _ hA.1) (hu.inside hA.1 location) hb hs
    exact .inr ⟨Attempt.firm_all.2 hfirm, hwithin⟩

theorem concurs_all (hr : job.grammar.Reaches (e, setting.skipping)) :
    Concur job job (job.Asked (Ground.all job.input) True (e, setting.skipping)) (Attempt.Firm (Ground.all job.input)) id
      (Attempt.Firm (Ground.all job.input)) (fun apply => evaluate job apply e setting)
      (fun apply => evaluate job apply e setting) :=
  evaluate_concurs (Ground.bears_all job) hr.has.1 trivial (.refl e setting) job.options.counting job.options.tracing

/-- However many levels are allowed, an expression goes no deeper than it is high. -/
theorem applyWithin_stays : ∀ (levels n : Nat), (applyWithin job levels).Stays job n := by
  -- the height goes down with the levels: what is asked for is less high
  intro levels
  induction levels with
  | zero => exact fun n e setting m depth bound s _ _ _ _ hs => ⟨by rintro _ ⟨⟩, hs⟩
  | succ levels ih =>
    intro n e setting m depth bound s hr hheight hu hb hs
    cases n with
    | zero => exact hheight.elim
    | succ n =>
      by_cases hf : job.options.remember = true → s.memory.find? (.of e setting) = none
      · have hn : s.reenters e setting.location = false :=
          Grammar.Under.not_reenters (hs.mark ▸ hu) hheight _
        have hobeys := Applier.Stays.obeys (ih n) (.applyWithin levels) hr hheight hu
          (show depth + 1 + n ≤ bound by omega) setting.location
        have hdeeper := hs.deeper job e.reference? setting.location (by omega)
        have hends := (concurs_all hr).ends hobeys hdeeper
        cases hw : (evaluate job (applyWithin job levels) e setting).on
          ((s.missed job).deeper job e.reference? setting.location) with
        | mk a t =>
        rw [hw] at hends
        obtain ⟨hfirm, hwithin⟩ := hends.resolve_left id
        have hback := hwithin.back hs.mark
        rw [applyWithin, on_remembering hf hn hw, hfirm.awaiting]
        exact ⟨Attempt.firm_all.1 hfirm, hback.mark, hback.depth, hback.deepest⟩
      · obtain ⟨hremember, hsome⟩ := Classical.not_imp.1 hf
        obtain ⟨v, hv⟩ := Option.ne_none_iff_exists'.1 hsome
        obtain ⟨s', hnear, hon⟩ := on_remembering_of_some hremember hv
        rw [applyWithin, hon]
        exact ⟨by rintro _ ⟨⟩, hs.near hnear⟩

/-- Where an expression of some height is worked out, what it tries is under its mark. -/
theorem exists_obeys {call : Call} (hr : job.grammar.Reaches (call.expr, call.setting.skipping))
    (hheight : job.grammar.Height (n + 1) (call.expr, call.setting.skipping))
    (hu : job.grammar.Under call.session.entered (call.expr, call.setting.skipping)) (levels : Nat) : ∃ I : Session → Prop,
      (applyWithin job levels).Obeys job .none (job.Asked (Ground.all job.input) True (call.expr, call.setting.skipping))
        (Attempt.Firm (Ground.all job.input)) I ∧
      I ((call.session.missed job).deeper job call.expr.reference? call.setting.location) ∧
        ∀ t, I t → t.entered = Mark.inside call.session.entered call.expr.reference? call.setting.location := by
  let bound := max call.session.counts.deepest (call.session.depth + (n + 1))
  have hbound : call.session.depth + (n + 1) ≤ bound := Nat.le_max_right _ _
  have hwithin : call.session.Within call.session.entered call.session.depth bound := ⟨rfl, rfl, Nat.le_max_left _ _⟩
  exact ⟨_, Applier.Stays.obeys (applyWithin_stays levels n) (.applyWithin levels) hr hheight hu
    (show call.session.depth + 1 + n ≤ bound by omega) call.setting.location, hwithin.deeper _ _ _ (by omega), fun _ h => h.mark⟩

/-- In the course of a parse, enough levels are left for an expression to go as deep as it is high. -/
theorem Job.Applies.exists_height {call : Call} (h : job.Applies (.rule job.grammar.start) levels call)
    (hn : job.grammar.Height n (.rule job.grammar.start, .standard)) (hl : n ≤ job.options.depthLimit) :
    ∃ n ≤ levels, job.grammar.Height n (call.expr, call.setting.skipping) ∧
      job.grammar.Reaches (call.expr, call.setting.skipping) ∧
        job.grammar.Under call.session.entered (call.expr, call.setting.skipping) := by
  induction h with
  | root => exact ⟨n, hl, hn, .refl, .start⟩
  | @inner levels call next _ hcalls ih =>
    obtain ⟨n, hl, hheight, hr, hu⟩ := ih
    cases n with
    | zero => exact hheight.elim
    | succ n =>
      obtain ⟨-, -, hcalls⟩ := calls_evaluate hcalls
      obtain ⟨I, hobeys, hI, hmark⟩ := exists_obeys hr hheight hu levels
      obtain ⟨hA, t, halike, ht, -⟩ := (concurs_all hr).calls (fun hA => hA.2.2.identity trivial) (.applyWithin levels) hobeys
        (.refl _) hI id hcalls
      refine ⟨n, by omega, hheight _ hA.1, ReflTransGen.tail hr hA.1, ?_⟩
      rw [halike.entered, hmark t ht]
      exact hu.inside hA.1 call.setting.location

end

/-- Where no expression asks for itself again, there is a bound, of the grammar alone, that nesting stays
within on every text and under all options. If more levels are allowed, no expression is ever tried with
no level left for it. -/
theorem Grammar.Acyclic.nesting_bounded {g : Grammar} (ha : g.Acyclic) :
    ∃ bound, ∀ (options : Options) (externals : Externals) (input : List Char),
      (g.counts options externals input).deepest ≤ bound ∧
        (bound < options.depthLimit → ∀ call,
          ¬ (Job.new g (.rule g.start) options externals input).Applies (.rule g.start) 0 call) := by
  obtain ⟨n, hn⟩ := ha.exists_height
  refine ⟨n, fun options externals input => ⟨?_, fun hl call h => ?_⟩⟩
  · have hstart : Session.start.Within none 0 n := ⟨rfl, rfl, Nat.zero_le _⟩
    let job := Job.new g (.rule g.start) { options with counting := true } externals input
    have hreaches : job.grammar.Reaches (.rule g.start, Setting.start.skipping) := .refl
    have hstays := applyWithin_stays options.depthLimit n hreaches hn .start (Nat.le_of_eq (Nat.zero_add n)) hstart
    exact hstays.2.deepest
  · obtain ⟨m, hm, hheight, -⟩ := h.exists_height hn (Nat.le_of_lt hl)
    cases Nat.le_zero.1 hm
    exact hheight

namespace Grammar

/-- Words with commas between them, in which spaces are skipped, but not within words. -/
def ofWordLists : Grammar where
  start := "list"
  rules := [
    ("list", .sequence [.rule "word", .repetition (.sequence [.literal [','], .rule "word"]) ⟨0, none⟩ none]),
    ("word", .repetition (.choice [.literal ['a'], .literal ['b']]) ⟨1, none⟩ none)]
  skipper := some (.literal [' '])
  overrides := [("word", none)]
  productions := []
  kinds := .empty

theorem nesting_bounded_ofWordLists : ∃ bound, ∀ (options : Options) (externals : Externals) (input : List Char),
    (ofWordLists.counts options externals input).deepest ≤ bound ∧
      (bound < options.depthLimit → ∀ call,
        ¬ (Job.new ofWordLists (.rule "list") options externals input).Applies (.rule "list") 0 call) :=
  have hheight : ofWordLists.Height 8 (.rule "list", .standard) := by decide +kernel
  (Acyclic.of_height hheight).nesting_bounded

/-! ## Skippers that skip -/

/-- Any number of spaces, behind any number of spaces. No rule is referred to. -/
def skippingSpaces : List Definition := [
  .rule "s" (.repetition (.literal [' ']) ⟨0, none⟩ none),
  .skipper (.repetition (.literal [' ']) ⟨0, none⟩ none),
  .start "s"]

section

/-- The grammar that this gives. -/
def ofSpaces : Grammar where
  start := "s"
  rules := [("s", .repetition (.literal [' ']) ⟨0, none⟩ none)]
  skipper := some (.repetition (.literal [' ']) ⟨0, none⟩ none)
  overrides := []
  productions := []
  kinds := .empty

variable {limit levels depth : Nat} {mark : Mark} {rule : Option String}

/-- The job of reading nothing with it. -/
def readSpaces (limit : Nat) : Job := Job.new ofSpaces (.rule "s") ⟨false, limit, true, false⟩ .nothing []

/-- A stance in which levels run out at the limit. -/
def runningOut (limit : Nat) (mark : Mark) (depth : Nat) : Stance := ⟨readSpaces limit, .deep limit, fun _ => True, mark, depth⟩

theorem space_fails (hl : depth + levels = limit) : (runningOut limit mark depth).Yields True
    (applyWithin (readSpaces limit) levels (.literal [' ']) ⟨.origin, rule, .standard⟩)
      fun a => ∃ f, a = .settled (.failed f) := by
  cases levels with
  | zero => exact .too_deep rfl fun c h => hl ▸ h
  | succ levels =>
    refine .remembering (k := runningOut limit mark depth) (Q := fun a => ∃ f, a = .settled (.failed f)) ?_ ?_
      (.pure fun _ => ⟨_, rfl⟩) ?_ ?_
    · rintro - ⟨⟩
    · exact .bind .reportReentry fun _ => .pure (by rintro ⟨⟨-, _, ⟨⟩, -⟩, -⟩)
    · exact fun _ _ _ _ _ => trivial
    · rintro - _ ⟨f, rfl⟩
      exact ⟨f, rfl⟩

/-- The repetition fails to read a space, skips by trying itself, and so on. -/
theorem spaces_run_out : ∀ {levels depth : Nat} {mark : Mark} {rule : Option String}, depth + levels = limit →
    (runningOut limit mark depth).Yields True
      (applyWithin (readSpaces limit) levels (.repetition (.literal [' ']) ⟨0, none⟩ none) ⟨.origin, rule, .standard⟩)
      fun _ => False := by
  intro levels
  induction levels with
  | zero => exact fun hl => .too_deep rfl fun c h => hl ▸ h
  | succ levels ih =>
    intro depth mark rule hl
    have hnext : depth + 1 + levels = limit := by omega
    refine .remembering (k := runningOut limit mark depth) (Q := fun _ => False) ?_ ?_ ?work (fun _ _ _ => False.elim)
      fun _ _ => False.elim
    · rintro - ⟨⟩
    · exact .bind .reportReentry fun _ => .pure (by rintro ⟨⟨-, _, ⟨⟩, -⟩, -⟩)
    case work =>
      show (runningOut limit mark (depth + 1)).Yields _ (tryRepetition _ _ _ _ _ _) _
      refine .bind (Q := fun _ => False) ?_ fun r => .void ?_ And.right
      · show (runningOut limit mark (depth + 1)).Yields _ (Rounds.drive _ _ _ _ _ (_ + 1) _) _
        unfold Rounds.drive
        refine .bind ((space_fails hnext).guard fun _ => trivial) fun a => ?_
        -- nothing but a failure can come of the space
        by_cases ha : ∃ f, a = .settled (.failed f)
        · obtain ⟨f, rfl⟩ := ha
          refine .bind (.bind ((ih hnext).guard fun _ => trivial) fun a => .void ?_ And.right) fun r => .void ?_ And.right
          · cases a <;> exact fun _ => id
          · rcases r with error | (_ | collected)
            · exact fun _ => id
            · exact fun _ => id
            · exact Alarm.Persists.rounds (.applyWithin _)
        · refine .void ?_ fun h => ha h.2
          rcases a with (t | (_ | _ | _) | span | f) | suspension | error
          · exact Alarm.Persists.ite .pure (.rounds (.applyWithin _))
          · exact Alarm.Persists.pure
          · exact Alarm.Persists.pure
          · exact Alarm.Persists.pure
          · exact Alarm.Persists.ite .pure (.rounds (.applyWithin _))
          · exact absurd ⟨f, rfl⟩ ha
          · exact Alarm.Persists.pure
          · exact Alarm.Persists.pure
      · cases r <;> exact fun _ => id

end

/-- A skipper that skips as it goes asks for itself, and nesting then goes to any depth that is allowed, though
no rule refers to any other. -/
theorem nesting_unbounded : ∃ g, ofDefinitions skippingSpaces = .ok g ∧ g.references = [g.start] ∧
    ∀ bound, ∃ options, bound < (g.counts options .nothing []).deepest := by
  refine ⟨ofSpaces, rfl, rfl, fun bound => ⟨⟨false, bound + 1, true, false⟩, ?_⟩⟩
  have hroot : (runningOut (bound + 1) none 0).Yields True (applyWithin (readSpaces (bound + 1)) (bound + 1) (.rule "s") .start)
      fun _ => False := by
    refine .remembering (k := runningOut (bound + 1) none 0) (Q := fun _ => False) ?_ ?_ ?work (fun _ _ _ => False.elim)
      fun _ _ => False.elim
    · rintro - ⟨⟩
    · exact .bind .reportReentry fun _ => .pure (by rintro ⟨⟨-, _, -, ⟨⟩⟩, -⟩)
    case work =>
      refine .bind .emit fun _ => .bind (.count (fun _ => Nat.le_refl _) fun _ => Nat.le_refl _) fun _ => ?_
      refine .bind ((spaces_run_out (Nat.add_comm 1 bound)).guard fun _ => trivial) fun a => .void ?_ And.right
      exact Alarm.Persists.bind .emit fun _ => .pure
  have hfits : (runningOut (bound + 1) none 0).Fits .start := ⟨trivial, rfl, rfl, fun _ => Nat.le_refl _⟩
  exact ((hroot .start).2 trivial hfits).resolve_right And.left

end Grammar

end Packrat

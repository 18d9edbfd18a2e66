/-
Direct left recursion is iteration. A rule whose first alternative is itself with something behind
it comes to what another alternative finds, extended by the rest of that alternative as often as the
rest matches and gets further into the input.
-/
import Packrat.Parse.Matcher
import Packrat.Proofs.Parse.Collecting
import Packrat.Proofs.Recursion.Loops

namespace Packrat

/-! ## Steps up to bookkeeping -/

/-- Taken in a session like `s`, the step has the result `a` and leaves a session like `t`. -/
def Eval.Comes {α : Type} (x : Eval α) (s : Session) (a : α) (t : Session) : Prop :=
  ∀ s', s'.Alike s → (x.on s').1 = a ∧ (x.on s').2.Alike t

namespace Eval.Comes

variable {α β : Type} {x : Eval α} {f : α → Eval β} {s t u : Session} {a : α} {b : β} {job : Job}

theorem pure : Comes (Pure.pure a) s a s := fun _ h => ⟨rfl, h⟩

theorem bind (hx : x.Comes s a t) (hf : (f a).Comes t b u) : (x >>= f).Comes s b u := by
  intro s' h
  obtain ⟨ha, ht⟩ := hx s' h
  rw [Eval.on_bind, ha]
  exact hf _ ht

theorem bind_get {f : Session → Eval β} (hf : ∀ s', s'.Alike s → (f s').Comes s b u) : (get >>= f).Comes s b u :=
  fun s' h => hf s' h s' h

/-- A step that goes its way whatever is counted comes to what it comes to in one session. -/
theorem of_agree (h : Eval.Agree x x) (hx : x.on s = (a, t)) : x.Comes s a t := by
  intro s' hs
  have := h s' s hs
  rw [hx] at this
  exact this

theorem note {entry : Note} : (Eval.note entry).Comes s () s := fun _ h => ⟨rfl, h.memory, h.entered⟩

theorem count {update : Counts → Counts} : (Eval.count job update).Comes s () s := by
  intro s' h
  rw [Eval.on_count]
  split <;> exact ⟨rfl, h.memory, h.entered⟩

theorem emit {event : Event} : (Eval.emit job event).Comes s () s := by
  intro s' h
  rw [Eval.on_emit]
  split <;> exact ⟨rfl, h.memory, h.entered⟩

/-- A question without a remembered answer. -/
theorem lookUp {q : Question} (h : job.options.remember = true → s.memory.find? q = none) :
    (Eval.lookUp job q).Comes s none s := by
  unfold Eval.lookUp
  split
  · next hr =>
    refine bind_get fun s' hs => ?_
    rw [hs.memory, h hr]
    exact bind count pure
  · exact pure

variable (job) in
/-- An attempt without a suspension comes back from being remembered as it is, and a verdict is found
again afterwards. -/
theorem remember {q : Question} {attempt : Attempt} (h : ∀ suspension, attempt ≠ .recursion (some suspension)) :
    ∃ t, (Eval.remember job q attempt).Comes s attempt t ∧
      ∀ v, attempt = .settled v → job.options.remember = true → t.memory.find? q = some v := by
  unfold Eval.remember
  split
  · cases attempt with
    | settled v =>
      refine ⟨{ s with memory := s.memory.insert q v }, bind (a := ()) (fun s' hs => ⟨rfl, ?_⟩) pure, ?_⟩
      · exact ⟨congrArg (·.insert q v) hs.memory, hs.entered⟩
      · rintro _ ⟨⟩ -
        rw [Memory.find?_insert, if_pos BEq.rfl]
    | recursion suspension =>
      cases suspension with
      | none => exact ⟨s, pure, nofun⟩
      | some suspension => exact absurd rfl (h suspension)
    | broken error => exact ⟨s, pure, nofun⟩
  · next hr => exact ⟨s, pure, fun _ _ h => absurd h hr⟩

variable (job) in
theorem nested {rule : Option String} {location : Location} {work : Eval Attempt} {a : Attempt}
    (h : work.Comes { s with entered := Mark.inside s.entered rule location } a t) :
    ∃ t', (Eval.nested job rule location work).Comes s a t' := by
  let after : Session := { t with entered := if rule.isSome then s.entered else t.entered }
  refine ⟨after, ?_⟩
  refine bind_get fun s₁ h₁ => bind_get fun s₂ h₂ => ?_
  refine bind (t := { s with entered := Mark.inside s.entered rule location }) (a := ())
    (fun s' hs => ⟨rfl, hs.memory, congrArg (Mark.inside · rule location) hs.entered⟩) ?_
  refine bind count (bind h (bind (t := after) (a := ()) (fun s' hs => ⟨rfl, hs.memory, ?_⟩) pure))
  show (if rule.isSome then s₂.entered else s'.entered) = if rule.isSome then s.entered else t.entered
  rw [h₂.entered, hs.entered]

variable (job) in
/-- An expression whose verdict is not remembered is worked out, unless it comes back to itself. The
verdict is remembered afterwards. -/
theorem remembering {work : Applier} {e : Expr} {setting : Setting} {a : Attempt}
    (hn : job.options.remember = true → s.memory.find? (.of e setting) = none)
    (he : ∀ rule, e = .rule rule → s.entered ≠ some (rule, setting.location))
    (hw : (work e setting).Comes { s with entered := Mark.inside s.entered e.reference? setting.location } a t)
    (ha : ∀ suspension, a ≠ .recursion (some suspension)) :
    ∃ t', (Packrat.remembering job work e setting).Comes s a t' ∧
      ∀ v, a = .settled v → job.options.remember = true → t'.memory.find? (.of e setting) = some v := by
  obtain ⟨t₁, h₁⟩ := nested job hw
  obtain ⟨t₂, h₂, hfound⟩ := remember job (s := t₁) (q := .of e setting) ha
  refine ⟨t₂, bind (lookUp hn) (bind_get fun s' hs => ?_), hfound⟩
  have : s'.reenters e setting.location = false := by
    cases e with
    | rule rule =>
      show (s'.entered == some (rule, setting.location)) = false
      rw [hs.entered]
      simpa using he rule rfl
    | _ => rfl
  rw [this]
  exact bind h₁ h₂

end Eval.Comes

/-! ## Growth -/

/-- A value with the results of one more round behind it, read from `start` up to `stop`. -/
def Tree.paired (input : List Char) (start stop : Position) (v more : Tree) : Tree :=
  .list (.own ⟨v.extent.start, more.extent.stop, Position.text input start stop⟩) [v, more]

theorem Tree.start_paired {input : List Char} {start stop : Position} {v more : Tree} :
    (paired input start stop v more).extent.start = v.extent.start := rfl

/-- What becomes of a value that was read up to a cursor, when rounds are tried behind it one after
the other until one does not match or does not get further. -/
inductive Grows (input : List Char) (start : Position) (round : Position → Eval Attempt) :
    Position → Tree → Session → Attempt → Session → Prop
  | atEnd {cursor : Position} {v : Tree} {s : Session} : input.length ≤ cursor.offset →
      Grows input start round cursor v s (.settled (.matched v)) s
  | stops {cursor : Position} {v : Tree} {s t : Session} {a : Attempt} : cursor.offset < input.length →
      (round cursor).on s = (a, t) → (∀ error, a ≠ .broken error) →
      (∀ more, a = .settled (.matched more) → more.extent.stop ≤ cursor.location) →
      Grows input start round cursor v s (.settled (.matched v)) t
  | breaks {cursor : Position} {v : Tree} {s t : Session} {error : GrammarError} : cursor.offset < input.length →
      (round cursor).on s = (.broken error, t) → Grows input start round cursor v s (.broken error) t
  | goesOn {cursor : Position} {v more : Tree} {s t u : Session} {a : Attempt} : cursor.offset < input.length →
      (round cursor).on s = (.settled (.matched more), t) → cursor.location < more.extent.stop →
      Grows input start round (cursor.moveTo input more.extent.stop)
        (.paired input start (cursor.moveTo input more.extent.stop) v more) t a u →
      Grows input start round cursor v s a u

/-- A value that grows stays a value, or a round breaks off. -/
theorem Grows.matched_or_broken {input : List Char} {start cursor : Position} {round : Position → Eval Attempt}
    {v : Tree} {s t : Session} {a : Attempt} (h : Grows input start round cursor v s a t) :
    (∃ w, a = .settled (.matched w)) ∨ ∃ error, a = .broken error := by
  induction h with
  | atEnd => exact .inl ⟨_, rfl⟩
  | stops => exact .inl ⟨_, rfl⟩
  | breaks => exact .inr ⟨_, rfl⟩
  | goesOn _ _ _ _ ih => exact ih

/-- The loop of a resumed sequence makes its value grow, and never runs short of rounds. -/
theorem Run.extend_comes {job : Job} {apply : Applier} (h : ∀ e setting, Eval.Agree (apply e setting) (apply e setting))
    {run : Run} : ∀ {fuel : Nat} {cursor : Position} {v : Tree}, job.remaining cursor ≤ fuel →
      v.extent.start = run.collected.start.location → ∀ s, ∃ a t,
        Grows job.input run.collected.start (run.tail job apply) cursor v s a t ∧
          (run.extend job apply fuel cursor v).Comes s a t
  | 0, cursor, v, hf, _, s => by
    have : job.input.length ≤ cursor.offset := by
      unfold Job.remaining at hf
      omega
    exact ⟨_, s, .atEnd this, .pure⟩
  | fuel + 1, cursor, v, hf, hv, s => by
    unfold Run.extend
    by_cases hend : job.input.length ≤ cursor.offset
    · simp only [if_pos hend]
      exact ⟨_, s, .atEnd hend, .pure⟩
    simp only [if_neg hend]
    have hlt : cursor.offset < job.input.length := by omega
    obtain ⟨a, t, hround⟩ : ∃ a t, (run.tail job apply cursor).on s = (a, t) := ⟨_, _, rfl⟩
    have hagree : Eval.Agree (run.tail job apply cursor) (run.tail job apply cursor) := Eval.Agree.tail h
    have hcomes := Eval.Comes.of_agree hagree hround
    -- every other outcome of the round leaves the value as it is
    have stop (hn : ∀ error, a ≠ .broken error)
        (hm : ∀ more, a = .settled (.matched more) → more.extent.stop ≤ cursor.location) :
        Grows job.input run.collected.start (run.tail job apply) cursor v s (.settled (.matched v)) t :=
      .stops hlt hround hn hm
    cases a with
    | broken error =>
      refine ⟨_, t, .breaks hlt hround, .bind hcomes ?_⟩
      exact .pure
    | recursion suspension =>
      refine ⟨_, t, stop (fun _ => nofun) fun _ => nofun, .bind hcomes ?_⟩
      exact .pure
    | settled verdict =>
      cases verdict with
      | silent | omitted | failed =>
        refine ⟨_, t, stop (fun _ => nofun) fun _ => nofun, .bind hcomes ?_⟩
        exact .pure
      | matched more =>
        by_cases hle : more.extent.stop ≤ cursor.location
        · refine ⟨_, t, stop (fun _ => nofun) ?_, .bind hcomes ?_⟩
          · rintro _ ⟨⟩
            exact hle
          · simp only [if_pos hle]
            exact .pure
        · have hahead := Location.not_le.1 hle
          have hmoves := Position.offset_lt_moveTo hlt hahead
          -- the pair covers what the value covers and what the round took
          have hpair : Tree.list (.own (.ofPositions job.input run.collected.start (cursor.moveTo job.input more.extent.stop)))
              [v, more] = .paired job.input run.collected.start (cursor.moveTo job.input more.extent.stop) v more := by
            have hstop : (cursor.moveTo job.input more.extent.stop).location = more.extent.stop :=
              Position.location_moveTo_of_le (Location.le_of_lt hahead)
            rw [Tree.paired, Span.ofPositions, hstop, hv]
          have hremains : job.remaining (cursor.moveTo job.input more.extent.stop) ≤ fuel := by
            unfold Job.remaining at hf ⊢
            omega
          obtain ⟨b, u, hgrows, hextend⟩ := extend_comes h hremains (Tree.start_paired.trans hv) t
          refine ⟨b, u, .goesOn hlt hround hahead hgrows, .bind hcomes ?_⟩
          simp only [if_neg hle]
          refine .bind .count (.bind .note ?_)
          rw [hpair]
          exact hextend

/-! ## Runs -/

namespace Run

variable {job : Job} {apply : Applier} {run : Run}

/-- A run goes on as itself, or it fails, waits or breaks off. -/
def Goes (run : Run) : Except Attempt Run → Prop
  | .ok further => run.Continues further
  | .error a => ∀ v, a = .settled v → ∃ failure, v = .failed failure

theorem Goes.trans {further : Run} {b : Except Attempt Run} (h : run.Continues further) (hb : further.Goes b) :
    run.Goes b := by
  cases b with
  | ok last => exact h.trans hb
  | error a => exact hb

theorem absorb_goes (a : Attempt) (s : Session) : run.Goes ((run.absorb job apply a).on s).1 := by
  unfold absorb
  split
  · exact ⟨rfl, rfl, rfl, rfl⟩
  · exact ⟨rfl, rfl, rfl, rfl⟩
  · exact ⟨rfl, rfl, rfl, rfl⟩
  · next failure =>
    rw [Eval.on_bind]
    split
    · exact ⟨rfl, rfl, rfl, rfl⟩
    · rintro v ⟨⟩
      exact ⟨failure, rfl⟩
    · rintro v ⟨⟩
  all_goals rintro v ⟨⟩

theorem drive_goes : ∀ (fuel : Nat) (run : Run) (s : Session), run.Goes ((run.drive job apply fuel).on s).1
  | 0, run, s => by
    rintro v ⟨⟩
    exact ⟨_, rfl⟩
  | fuel + 1, run, s => by
    unfold drive
    split
    · exact ⟨rfl, rfl, rfl, rfl⟩
    · next part _ =>
      rw [Eval.on_bind, Eval.on_get]
      split
      · rintro v ⟨⟩
      · rw [Eval.on_bind, Eval.on_bind]
        have habsorb : run.Goes ((run.absorb job apply ((apply part run.here).on s).1).on ((apply part run.here).on s).2).1 :=
          absorb_goes _ _
        split
        · next further hb =>
          rw [hb] at habsorb
          exact Goes.trans habsorb (drive_goes fuel further _)
        · next a hb =>
          rw [hb] at habsorb
          exact habsorb

end Run

/-! ## Iteration -/

namespace Loop

/-- Tries alternatives in order until one does not fail: its value, if it has one. -/
def firstValue (apply : Applier) (setting : Setting) : List Expr → Eval (Option Tree)
  | [] => return none
  | e :: others => do
    match ← apply e setting with
    | .settled (.matched tree) => return some tree
    | .settled (.failed _) => firstValue apply setting others
    | _ => return none

variable (r : Loop) (job : Job) (apply : Applier) (setting : Setting)

/-- The recursive alternative with a value of another one for its first part. -/
def begun (b : Tree) : Run :=
  { r.aside setting with
    collected := (Accumulator.new setting.position).add job.input b.widened
    done := 1
    needsSeed := false }

/-- Trying the other parts of the recursive alternative from a position on. -/
def round (cursor : Position) : Eval Attempt := (r.aside setting).tail job apply cursor

/-- What the body comes to where another alternative has the value `b`. -/
inductive Iterates (b : Tree) (s : Session) : Attempt → Prop
  /-- The other parts do not match right behind the value. -/
  | alone {a : Attempt} {t : Session} :
      ((r.begun job setting b).drive job apply ((r.begun job setting b).fuel job)).on s = (.error a, t) →
      (∀ error, a ≠ .broken error) → Iterates b s (.settled (.matched b))
  | breaks {error : GrammarError} {t : Session} :
      ((r.begun job setting b).drive job apply ((r.begun job setting b).fuel job)).on s = (.error (.broken error), t) →
      Iterates b s (.broken error)
  /-- The value with the results of the other parts behind it grows. -/
  | grows {run : Run} {t u : Session} {a : Attempt} :
      ((r.begun job setting b).drive job apply ((r.begun job setting b).fuel job)).on s = (.ok run, t) →
      Grows job.input run.collected.start (r.round job apply setting) run.collected.cursor
        (run.collected.tree job.input) t a u → Iterates b s a

variable {r job apply setting} {b : Tree} {s t : Session} {a : Attempt}

theorem Iterates.matched_or_broken (h : r.Iterates job apply setting b s a) :
    (∃ w, a = .settled (.matched w)) ∨ ∃ error, a = .broken error := by
  cases h with
  | alone => exact .inl ⟨_, rfl⟩
  | breaks => exact .inr ⟨_, rfl⟩
  | grows _ hg => exact hg.matched_or_broken

/-- What a seed and what came of the work resumed with it amount to: the seed stands if that came to
nothing. -/
def orSeed (seed : Tree) : Attempt → Attempt
  | .settled (.failed _) | .recursion _ => .settled (.matched seed)
  | a => a

/-- With a value for its first part the recursive alternative iterates. -/
theorem resume_comes (hp : job.grammar.production? r.name = none) (h : ∀ e setting, Eval.Agree (apply e setting) (apply e setting))
    (hin : setting.rule = some r.name) (b : Tree) (s : Session) : ∃ c t, r.Iterates job apply setting b s (orSeed b c) ∧
      ((r.aside setting).resume job apply (.settled (.matched b))).Comes s c t := by
  have hseeded : (r.aside setting).seeded job (.settled (.matched b)) = .settled (.matched b.widened) := by
    unfold Run.seeded Grammar.produce
    rw [show (r.aside setting).setting.rule = some r.name from hin]
    simp only [hp]
  have hresume : (r.aside setting).resume job apply (.settled (.matched b)) = (r.begun job setting b).finish job apply := by
    show (Run.absorb job apply _ ((r.aside setting).seeded job (.settled (.matched b))) >>= _) = _
    rw [hseeded]
    rfl
  have hagree : Eval.Agree ((r.begun job setting b).drive job apply ((r.begun job setting b).fuel job))
      ((r.begun job setting b).drive job apply ((r.begun job setting b).fuel job)) := Eval.Agree.drive h
  obtain ⟨d, t, hdrive⟩ : ∃ d t,
      ((r.begun job setting b).drive job apply ((r.begun job setting b).fuel job)).on s = (d, t) := ⟨_, _, rfl⟩
  have hcomes := Eval.Comes.of_agree hagree hdrive
  have hgoes : (r.begun job setting b).Goes d := by
    have := @Run.drive_goes job apply ((r.begun job setting b).fuel job) (r.begun job setting b) s
    rwa [hdrive] at this
  rw [hresume]
  cases d with
  | error c =>
    refine ⟨c, t, ?_, .bind hcomes .pure⟩
    cases c with
    | broken error => exact .breaks hdrive
    | recursion suspension => exact .alone hdrive fun _ => nofun
    | settled v =>
      obtain ⟨failure, rfl⟩ := hgoes v rfl
      exact .alone hdrive fun _ => nofun
  | ok run =>
    obtain ⟨hparts, hflatten, hsetting, hgrowing⟩ := hgoes
    have hround : run.tail job apply = r.round job apply setting := by
      funext cursor
      unfold Run.tail round
      rw [hparts, hflatten, hsetting]
      rfl
    have hstart : (run.collected.tree job.input).extent.start = run.collected.start.location := by
      rw [Accumulator.extent_tree]
      rfl
    obtain ⟨a, u, hgrows, hextend⟩ := Run.extend_comes h (Nat.le_refl (job.remaining run.collected.cursor)) hstart t
    rw [hround] at hgrows
    have hstands : orSeed b a = a := by
      obtain ⟨w, rfl⟩ | ⟨error, rfl⟩ := hgrows.matched_or_broken <;> rfl
    refine ⟨a, u, ?_, .bind hcomes ?_⟩
    · rw [hstands]
      exact .grows hdrive hgrows
    show (run.complete job apply).Comes t a u
    unfold Run.complete
    rw [show run.growing = true from hgrowing]
    exact hextend

/-- What waits besides the recursive alternative changes nothing. -/
theorem waiting_comes {b : Tree} {c : Attempt} {s t : Session}
    (hc : ((r.aside setting).resume job apply (.settled (.matched b))).Comes s c t) :
    ∃ c' t', orSeed b c' = orSeed b c ∧
      (Suspension.resume job apply (r.waiting job setting) (.settled (.matched b))).Comes s c' t' := by
  -- nothing but a verdict on the recursive alternative is remembered
  have hrest (hn : ∀ suspension, c ≠ .recursion (some suspension)) : ∃ t', (Suspension.resume job apply
      (if job.options.remember then [.memory (.of r.step setting)] else []) c).Comes t c t' := by
    split
    · obtain ⟨t', ht, -⟩ := Eval.Comes.remember job (s := t) (q := .of r.step setting) hn
      refine ⟨t', .bind ht ?_⟩
      split
      · exact absurd rfl (hn _)
      · exact .pure
    · exact ⟨t, .pure⟩
  cases c with
  | recursion suspension =>
    cases suspension with
    | some suspension =>
      refine ⟨.recursion (some (suspension ++ if job.options.remember then [.memory (.of r.step setting)] else [])), t,
        rfl, .bind hc ?_⟩
      exact .pure
    | none =>
      obtain ⟨t', ht⟩ := hrest fun _ => nofun
      exact ⟨_, t', rfl, .bind hc ht⟩
  | settled v =>
    obtain ⟨t', ht⟩ := hrest fun _ => nofun
    exact ⟨_, t', rfl, .bind hc ht⟩
  | broken error =>
    obtain ⟨t', ht⟩ := hrest fun _ => nofun
    exact ⟨_, t', rfl, .bind hc ht⟩

/-- The body comes to what a seed iterates to. -/
theorem plantSeed_comes (hp : job.grammar.production? r.name = none) (h : ∀ e setting, Eval.Agree (apply e setting) (apply e setting))
    (hin : setting.rule = some r.name) (b : Tree) (s : Session) : ∃ a t,
      r.Iterates job apply setting b s a ∧ (plantSeed job apply (r.waiting job setting) b).Comes s a t := by
  obtain ⟨c, t, hi, hc⟩ := resume_comes hp h hin b s
  obtain ⟨c', t', he, hc'⟩ := waiting_comes hc
  refine ⟨_, t', hi, .bind .note (.bind .emit (.bind .count (.bind hc' ?_)))⟩
  rw [← he]
  rcases c' with (_ | _ | _ | failure) | suspension | error <;> exact .pure

/-- Once the recursive alternative waits, the first value among the other alternatives is its seed. -/
theorem tryBases_comes (hp : job.grammar.production? r.name = none) (h : ∀ e setting, Eval.Agree (apply e setting) (apply e setting))
    (hin : setting.rule = some r.name) {b : Tree} {t : Session} : ∀ {bases : List Expr} {tried : Tried} {s : Session},
      tried.recursion = some (some (r.waiting job setting)) → (firstValue apply setting bases).on s = (some b, t) →
        ∃ a u, r.Iterates job apply setting b t a ∧ (tryChoice job apply setting bases tried).Comes s a u
  | [], tried, s, _, hb => by cases hb
  | e :: others, tried, s, ht, hb => by
    obtain ⟨c, s', he⟩ : ∃ c s', (apply e setting).on s = (c, s') := ⟨_, _, rfl⟩
    have hcomes := Eval.Comes.of_agree (h e setting) he
    rw [firstValue, Eval.on_bind, he] at hb
    rcases c with (v | _ | _ | failure) | suspension | error
    · -- the value is found
      obtain ⟨rfl, rfl⟩ : v = b ∧ s' = t := by
        cases hb
        exact ⟨rfl, rfl⟩
      obtain ⟨a, u, hi, hp⟩ := plantSeed_comes hp h hin v s'
      refine ⟨a, u, hi, .bind hcomes ?_⟩
      simp only [ht]
      exact hp
    · cases hb
    · cases hb
    · have hfailed : (tried.failed failure).recursion = some (some (r.waiting job setting)) := by
        unfold Tried.failed
        split <;> exact ht
      obtain ⟨a, u, hi, hc⟩ := tryBases_comes hp h hin hfailed hb
      exact ⟨a, u, hi, .bind hcomes (.bind .emit (.bind .count hc))⟩
    · cases hb
    · cases hb

/-- Where the rule is entered and the body not remembered, the recursive alternative waits. -/
theorem step_comes {levels : Nat} (hs : r.Backed s.memory) (he : s.entered = some (r.name, setting.location))
    (hn : job.options.remember = true → s.memory.find? (.of r.body setting) = none) :
    (applyWithin job (levels + 1) r.step setting).Comes s (.recursion (some (r.waiting job setting))) s := by
  -- the depth does not matter
  let shallow : Session := { s with depth := 0 }
  let k : Stance := ⟨job, .none, (· = s.memory), s.entered, 0⟩
  have hwaits := step_waits (k := k) (φ := True) (by rintro m rfl; exact hs) he levels
  have hfits : (k.asking (.of r.body setting)).Fits shallow := ⟨⟨rfl, hn⟩, rfl, rfl, fun _ => Nat.zero_le _⟩
  have hagree : Eval.Agree (applyWithin job (levels + 1) r.step setting) (applyWithin job (levels + 1) r.step setting) :=
    Eval.Agree.applyWithin _ _ _
  intro s' hs'
  obtain ⟨hresult, hlike⟩ := hagree s' shallow ⟨hs'.memory, hs'.entered⟩
  rcases (hwaits shallow).2 trivial hfits with h | ⟨ha, hf⟩
  · cases h
  · exact ⟨hresult.trans ha, hlike.memory.trans hf.memory.1, hlike.entered.trans hf.mark⟩

/-- The body iterates from the first value among the other alternatives. -/
theorem body_comes (hp : job.grammar.production? r.name = none) {levels : Nat}
    (hb : (firstValue (applyWithin job levels) setting r.bases).on s = (some b, t)) (hs : r.Backed s.memory)
    (he : s.entered = some (r.name, setting.location)) (hin : setting.rule = some r.name)
    (hn : job.options.remember = true → s.memory.find? (.of r.body setting) = none) : ∃ a u,
      r.Iterates job (applyWithin job levels) setting b t a ∧ (applyWithin job (levels + 1) r.body setting).Comes s a u := by
  have hlevels : ∃ more, levels = more + 1 := by
    cases levels with
    | succ more => exact ⟨more, rfl⟩
    | zero =>
      -- without levels every alternative fails
      have hnone : ∀ bases, firstValue (applyWithin job 0) setting bases = pure none := by
        intro bases
        induction bases with
        | nil => rfl
        | cons e others ih => exact ih
      rw [hnone] at hb
      cases hb
  obtain ⟨more, rfl⟩ := hlevels
  have hagree (e : Expr) (setting : Setting) :
      Eval.Agree (applyWithin job (more + 1) e setting) (applyWithin job (more + 1) e setting) :=
    Eval.Agree.applyWithin _ _ _
  have hwaits : (⟨none, some (some (r.waiting job setting))⟩ : Tried).recursion = some (some (r.waiting job setting)) := rfl
  obtain ⟨a, u, hi, hc⟩ := tryBases_comes hp hagree hin hwaits hb
  have hwork : (evaluate job (applyWithin job (more + 1)) r.body setting).Comes
      { s with entered := Mark.inside s.entered r.body.reference? setting.location } a u :=
    .bind (step_comes hs he hn) hc
  have hplain : ∀ suspension, a ≠ .recursion (some suspension) := by
    rintro suspension rfl
    rcases hi.matched_or_broken with ⟨w, h⟩ | ⟨error, h⟩ <;> cases h
  obtain ⟨u', hbody, -⟩ := Eval.Comes.remembering job hn (fun _ => nofun) hwork hplain
  exact ⟨a, u', hi, hbody⟩

/-- Where the body of the rule is tried when the rule is. -/
def inside (r : Loop) (job : Job) (setting : Setting) : Setting :=
  ⟨setting.position, some r.name, job.skippingIn r.name setting.skipping⟩

end Loop

end Packrat

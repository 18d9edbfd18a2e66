/-
Loops that take turns. A turn gives the result of a loop or the state for its next turn. Where each turn
that goes on brings a measure down, the loop ends by itself within as many turns as the measure says, and
being allowed more does not matter. The loops of a parse are such loops: the parts of a sequence, the
rounds of a repetition and the growth of a sequence that was set aside.
-/
import Packrat.Parse.Rounds
import Packrat.Parse.Run
import Packrat.Proofs.Session.Logic

namespace Packrat

/-! ## Loops -/

section

variable {ρ σ : Type}

/-- Takes turns until one gives a result, or until no more are allowed. -/
def takeTurns (turn : σ → Eval (ρ ⊕ σ)) (stop : σ → ρ) : (allowed : Nat) → σ → Eval ρ
  | 0, x => return stop x
  | allowed + 1, x => do
    match ← turn x with
    | .inl r => return r
    | .inr y => takeTurns turn stop allowed y

/-- Begun in a session with the step `x`, the loop ends by itself in so many turns, of which that step is
the first, with a result and in a session. -/
inductive EndsIn (turn : σ → Eval (ρ ⊕ σ)) : Nat → Eval (ρ ⊕ σ) → Session → ρ → Session → Prop
  | last {x : Eval (ρ ⊕ σ)} {s t : Session} {r : ρ} : x.on s = (.inl r, t) → EndsIn turn 1 x s r t
  | more {n : Nat} {x : Eval (ρ ⊕ σ)} {y : σ} {s s' t : Session} {r : ρ} : x.on s = (.inr y, s') →
    EndsIn turn n (turn y) s' r t → EndsIn turn (n + 1) x s r t

/-- What a turn comes to: a result with `D`, or a state with `G` and a measure below a bound. -/
def Onward (D : ρ → Prop) (G : σ → Prop) (μ : σ → Nat) (bound : Nat) : ρ ⊕ σ → Prop
  | .inl r => D r
  | .inr y => G y ∧ μ y < bound

variable {turn : σ → Eval (ρ ⊕ σ)} {stop : σ → ρ} {n allowed : Nat} {x : σ} {s t : Session} {r : ρ} {k : Stance}
  {D : ρ → Prop} {G : σ → Prop} {μ : σ → Nat}

/-- More turns than the loop takes need not be allowed. -/
theorem EndsIn.takeTurns (h : EndsIn turn n (turn x) s r t) (hn : n ≤ allowed) :
    (takeTurns turn stop allowed x).on s = (r, t) := by
  induction allowed generalizing n x s with
  | zero => cases h <;> omega
  | succ allowed ih =>
    unfold Packrat.takeTurns
    rw [Eval.on_bind]
    cases h with
    | last hx => rw [hx, Eval.on_pure]
    | more hx h =>
      rw [hx]
      exact ih h (by omega)

/-- Where no turn is left to be allowed when the measure is down, it does not matter that none is taken. -/
theorem EndsIn.takeTurns_of_idle (hturn : ∀ x, G x → k.Yields True (turn x) (Onward D G μ (μ x)))
    (hk : ∀ c, ¬ k.alarm.rung c) (hidle : ∀ x, G x → μ x = 0 → turn x = pure (.inl (stop x)))
    (h : EndsIn turn n (turn x) s r t) (hx : G x) (hs : k.Fits s) (hn : μ x ≤ allowed) :
    (Packrat.takeTurns turn stop allowed x).on s = (r, t) := by
  induction allowed generalizing n x s with
  | zero =>
    rw [hidle x hx (Nat.le_zero.1 hn)] at h
    cases h with
    | last hx => cases hx; rfl
    | more hx => cases hx
  | succ allowed ih =>
    obtain ⟨honward, hs'⟩ := ((hturn x hx s).2 trivial hs).resolve_left (hk _)
    unfold Packrat.takeTurns
    rw [Eval.on_bind]
    cases h with
    | last hx => rw [hx, Eval.on_pure]
    | more hx h =>
      rw [hx] at honward hs' ⊢
      exact ih h honward.1 hs' (Nat.le_of_lt_succ (Nat.lt_of_lt_of_le honward.2 hn))

/-- In sessions of the stance the second step does the same as the first. -/
def Stance.Same {α : Type} (k : Stance) (x y : Eval α) : Prop := ∀ s, k.Fits s → y.on s = x.on s

/-- Loops with the same turns do the same if they are allowed the same number of turns, or enough. -/
theorem takeTurns_same {turn' : σ → Eval (ρ ⊕ σ)} (hturn : ∀ x, G x → k.Yields True (turn x) (Onward D G μ (μ x)))
    (hk : ∀ c, ¬ k.alarm.rung c) (hsame : ∀ x, G x → k.Same (turn x) (turn' x)) {allowed' : Nat} (hx : G x)
    (hn : allowed = allowed' ∨ μ x < allowed ∧ μ x < allowed') :
    k.Same (takeTurns turn stop allowed x) (takeTurns turn' stop allowed' x) := by
  induction allowed generalizing allowed' x with
  | zero =>
    obtain rfl : 0 = allowed' := hn.resolve_right fun h => absurd h.1 (Nat.not_lt_zero _)
    exact fun _ _ => rfl
  | succ allowed ih =>
    cases allowed' with
    | zero => omega
    | succ allowed' =>
      intro s hs
      obtain ⟨honward, hs'⟩ := ((hturn x hx s).2 trivial hs).resolve_left (hk _)
      unfold takeTurns
      rw [Eval.on_bind, Eval.on_bind, hsame x hx s hs]
      cases hon : (turn x).on s with
      | mk next s' =>
      rw [hon] at honward hs'
      cases next with
      | inl r => rfl
      | inr y =>
        obtain ⟨hy, hlt⟩ := honward
        exact ih hy (by omega) s' hs'

/-- A loop whose turns bring the measure down ends within as many turns as the measure says and one. -/
theorem exists_endsIn (hturn : ∀ x, G x → k.Yields True (turn x) (Onward D G μ (μ x))) (hk : ∀ c, ¬ k.alarm.rung c)
    {bound : Nat} {first : Eval (ρ ⊕ σ)} (hfirst : k.Yields True first (Onward D G μ bound)) (hs : k.Fits s) :
    ∃ n r t, n ≤ bound + 1 ∧ EndsIn turn n first s r t ∧ D r ∧ k.Fits t := by
  induction bound using Nat.strongRecOn generalizing first s with
  | ind bound ih =>
    obtain ⟨honward, hs'⟩ := ((hfirst s).2 trivial hs).resolve_left (hk _)
    cases hon : first.on s with
    | mk next s' =>
    rw [hon] at honward hs'
    cases next with
    | inl r => exact ⟨1, r, s', by omega, .last hon, honward, hs'⟩
    | inr y =>
      obtain ⟨hy, hlt⟩ := honward
      obtain ⟨n, r, t, hn, hends, hr, ht⟩ := ih (μ y) hlt (hturn y hy) hs'
      exact ⟨n + 1, r, t, by omega, .more hon hends, hr, ht⟩

end

section

variable {ρ ρ' σ σ' : Type} {turn : σ → Eval (ρ ⊕ σ)} {turn' : σ' → Eval (ρ' ⊕ σ')} {n n' : Nat} {x y : Eval (ρ ⊕ σ)}
  {s s' t t' : Session} {r : ρ} {r' : ρ'}

theorem EndsIn.pos (h : EndsIn turn n x s r t) : 0 < n := by
  cases h <;> exact Nat.succ_pos _

/-- It matters only what comes of the first step. -/
theorem EndsIn.of_on_eq (h : EndsIn turn n x s r t) (he : y.on s' = x.on s) : EndsIn turn n y s' r t := by
  cases h with
  | last hx => exact .last (he.trans hx)
  | more hx h => exact .more (he.trans hx) h

/-- A loop can end in one way only. -/
theorem EndsIn.unique {q : ρ} (h : EndsIn turn n x s r t) (h' : EndsIn turn n' x s q t') : r = q ∧ t = t' := by
  induction h generalizing n' with
  | last hx =>
    cases h' with
    | last hx' =>
      cases hx.symm.trans hx'
      exact ⟨rfl, rfl⟩
    | more hx' => cases hx.symm.trans hx'
  | more hx _ ih =>
    cases h' with
    | last hx' => cases hx.symm.trans hx'
    | more hx' h' =>
      cases hx.symm.trans hx'
      exact ih h'

/-- A loop that does what another one does until that ends goes on with what it makes of the result. -/
theorem EndsIn.follow {f : σ → σ'} {g : ρ → ρ' ⊕ σ'} {G : σ → Session → Prop}
    (hturn : ∀ y s, G y s → (turn' (f y)).on s = Prod.map (Sum.elim g (.inr ∘ f)) id ((turn y).on s))
    (hG : ∀ y s z t, G y s → (turn y).on s = (.inr z, t) → G z t) {y : σ} (hy : G y s) (h : EndsIn turn n (turn y) s r t)
    (h' : EndsIn turn' n' (pure (g r)) t r' t') : EndsIn turn' (n - 1 + n') (turn' (f y)) s r' t' := by
  generalize hx : turn y = x at h
  induction h generalizing y with
  | last hon =>
    subst hx
    rw [Nat.sub_self, Nat.zero_add]
    refine h'.of_on_eq ?_
    rw [hturn y _ hy, hon]
    rfl
  | @more n _ _ _ _ _ _ hon h ih =>
    subst hx
    have hlater : EndsIn turn' (n - 1 + n' + 1) (turn' (f y)) _ r' t' :=
      .more (by rw [hturn y _ hy, hon]; rfl) (ih (hG _ _ _ _ hy hon) h' rfl)
    have := h.pos
    rwa [show n + 1 - 1 + n' = n - 1 + n' + 1 by omega]

end

variable {job : Job} {apply : Applier}

/-! ## Sequences -/

namespace Run

/-- Takes what came of the current part: the sequence goes on, or that is what comes of it. -/
def take (job : Job) (apply : Applier) (run : Run) (attempt : Attempt) : Eval (Except Attempt Run ⊕ Run) := do
  match ← run.absorb job apply attempt with
  | .ok further => return .inr further
  | .error attempt => return .inl (.error attempt)

/-- Tries the current part, unless all parts are done or the part would come back to the rule entered last. -/
def turn (job : Job) (apply : Applier) (run : Run) : Eval (Except Attempt Run ⊕ Run) :=
  match run.parts[run.done]? with
  | none => return .inl (.ok run)
  | some part => do
    if run.done = 0 ∧ (← get).reenters part run.here.location then
      Eval.reportReentry job (part.reference?.getD "") run.here.location
      return .inl (.error run.suspend)
    else
      run.take job apply (← apply part run.here)

/-- The first turn of a sequence that is resumed: it takes what came of the part that it waited for. -/
def resumption (job : Job) (apply : Applier) (run : Run) (attempt : Attempt) : Eval (Except Attempt Run ⊕ Run) :=
  ({ run with needsSeed := false } : Run).take job apply (if run.needsSeed then run.seeded job attempt else attempt)

/-- What comes of a sequence that has taken its last turn. -/
def ending (job : Job) (apply : Applier) : Except Attempt Run → Eval Attempt
  | .ok run => run.complete job apply
  | .error attempt => return attempt

/-- Tries the other parts of a sequence that was set aside once more, unless no input is left. -/
def growth (job : Job) (apply : Applier) (run : Run) : Position × Tree → Eval (Attempt ⊕ Position × Tree)
  | (cursor, tree) => do
    if job.input.length ≤ cursor.offset then return .inl (.settled (.matched tree))
    match ← run.tail job apply cursor with
    | .settled (.matched more) =>
      if more.extent.stop ≤ cursor.location then return .inl (.settled (.matched tree))
      let cursor := cursor.moveTo job.input more.extent.stop
      let span := Span.ofPositions job.input run.collected.start cursor
      Eval.count job fun c => { c with growths := c.growths + 1 }
      Eval.note (.grown cursor.location)
      return .inr (cursor, .list (.own span) [tree, more])
    | .broken error => return .inl (.broken error)
    | _ => return .inl (.settled (.matched tree))

/-- Without input left, a sequence does not grow. -/
theorem growth_of_length_le {run : Run} {cursor : Position} {tree : Tree} (h : job.input.length ≤ cursor.offset) :
    run.growth job apply (cursor, tree) = pure (.inl (.settled (.matched tree))) := if_pos h

/-- Parts are tried turn by turn. -/
theorem drive_succ {fuel : Nat} {run : Run} : run.drive job apply (fuel + 1) = (do
    match ← run.turn job apply with
    | .inl r => return r
    | .inr further => further.drive job apply fuel) := by
  unfold turn
  rw [drive]
  cases run.parts[run.done]? with
  | none => simp only [pure_bind]
  | some part =>
    simp only [bind_assoc]
    congr
    funext s
    split
    · simp only [bind_assoc, pure_bind]
    · unfold take
      simp only [bind_assoc]
      congr
      funext a
      congr
      funext r
      cases r <;> simp only [pure_bind]

theorem drive_eq_takeTurns : ∀ {fuel : Nat} {run : Run}, run.drive job apply fuel =
    takeTurns (turn job apply) (fun run => .error (.failure (.tooDeep 0) run.here.location)) fuel run
  | 0, _ => rfl
  | fuel + 1, run => by
    rw [drive_succ, takeTurns]
    congr
    funext next
    cases next with
    | inl r => rfl
    | inr further => exact drive_eq_takeTurns

/-- A sequence that was set aside grows turn by turn. -/
theorem extend_succ {run : Run} {fuel : Nat} {cursor : Position} {tree : Tree} :
    run.extend job apply (fuel + 1) cursor tree = (do
      match ← run.growth job apply (cursor, tree) with
      | .inl r => return r
      | .inr (cursor, tree) => run.extend job apply fuel cursor tree) := by
  unfold growth
  rw [extend]
  simp only
  split
  · simp only [pure_bind]
  · simp only [bind_assoc]
    congr
    funext a
    rcases a with (t | why | span | failure) | suspension | error
    · by_cases h : t.extent.stop ≤ cursor.location
      · simp only [if_pos h, pure_bind]
      · simp only [if_neg h, bind_assoc, pure_bind]
    all_goals simp only [pure_bind]

theorem extend_eq_takeTurns {run : Run} : ∀ {fuel : Nat} {cursor : Position} {tree : Tree},
    run.extend job apply fuel cursor tree =
      takeTurns (run.growth job apply) (fun grown => .settled (.matched grown.2)) fuel (cursor, tree)
  | 0, _, _ => rfl
  | fuel + 1, cursor, tree => by
    rw [extend_succ, takeTurns]
    congr
    funext next
    cases next with
    | inl r => rfl
    | inr grown => exact extend_eq_takeTurns

/-- A run that grows has a result, unless the grammar turns out to be malformed. -/
theorem extend_grows {run : Run} {fuel : Nat} {cursor : Position} {t : Tree} (s : Session) :
    (∃ u, ((run.extend job apply fuel cursor t).on s).1 = .settled (.matched u)) ∨
      ∃ error, ((run.extend job apply fuel cursor t).on s).1 = .broken error := by
  induction fuel generalizing cursor t s with
  | zero => exact .inl ⟨t, rfl⟩
  | succ fuel ih =>
    unfold Run.extend
    split
    · exact .inl ⟨t, rfl⟩
    · rw [Eval.on_bind]
      split
      · split
        · exact .inl ⟨t, rfl⟩
        · rw [Eval.on_bind, Eval.on_bind]
          exact ih _
      · exact .inr ⟨_, rfl⟩
      · exact .inl ⟨t, rfl⟩

theorem finish_eq_ending {run : Run} : run.finish job apply = run.drive job apply (run.fuel job) >>= ending job apply := by
  unfold finish
  congr

/-- A sequence is resumed with its first turn, and then driven on. -/
theorem resume_eq_resumption {run : Run} {attempt : Attempt} : run.resume job apply attempt = (do
    match ← run.resumption job apply attempt with
    | .inl r => ending job apply r
    | .inr further => further.drive job apply (further.fuel job) >>= ending job apply) := by
  unfold resume resumption take
  simp only [bind_assoc]
  congr
  funext r
  cases r with
  | ok further =>
    simp only [pure_bind]
    exact finish_eq_ending
  | error attempt => rfl

end Run

/-! ## Repetitions -/

namespace Rounds

/-- Tries one more round, if the bounds allow it. -/
def turn (job : Job) (apply : Applier) (body : Expr) (bounds : Bounds) (setting : Setting) (rounds : Rounds) :
    Eval (Except Attempt Rounds ⊕ Rounds) := do
  if !rounds.mayGoOn bounds then return .inl (.ok rounds)
  let cursor := rounds.collected.cursor
  match ← apply body (setting.moved cursor) with
  | .settled (.matched tree) =>
    let further := rounds.next (rounds.collected.add job.input tree)
    if tree.extent.stop ≤ cursor.location then return .inl (.ok further)
    return .inr further
  | .settled (.omitted span) =>
    if span.stop ≤ cursor.location then return .inl (.ok rounds)
    return .inr (rounds.next (rounds.collected.pass job.input span.stop))
  | .settled (.silent .tookNothing) => return .inl (.ok rounds)
  | .settled (.silent why) => return .inl (.error (.settled (.silent why)))
  | .settled (.failed _) =>
    match ← skipBetween job apply setting rounds.collected with
    | .ok (some collected) => return .inr { rounds with collected }
    | .ok none => return .inl (.ok rounds)
    | .error error => return .inl (.error (.broken error))
  | .recursion _ => return .inl (.error (.recursion none))
  | .broken error => return .inl (.error (.broken error))

/-- Rounds are tried turn by turn. -/
theorem drive_succ {body : Expr} {bounds : Bounds} {setting : Setting} {fuel : Nat} {rounds : Rounds} :
    rounds.drive job apply body bounds setting (fuel + 1) = (do
      match ← rounds.turn job apply body bounds setting with
      | .inl r => return r
      | .inr further => further.drive job apply body bounds setting fuel) := by
  unfold turn
  rw [drive]
  simp only
  split
  · simp only [pure_bind]
  · simp only [bind_assoc]
    congr
    funext a
    rcases a with (t | (_ | _ | _) | span | failure) | suspension | error
    · by_cases h : t.extent.stop ≤ rounds.collected.cursor.location
      · simp only [if_pos h, pure_bind]
      · simp only [if_neg h, pure_bind]
    · simp only [pure_bind]
    · simp only [pure_bind]
    · simp only [pure_bind]
    · by_cases h : span.stop ≤ rounds.collected.cursor.location
      · simp only [if_pos h, pure_bind]
      · simp only [if_neg h, pure_bind]
    · simp only [bind_assoc]
      congr
      funext skipped
      rcases skipped with error | (_ | collected) <;> simp only [pure_bind]
    all_goals simp only [pure_bind]

theorem drive_eq_takeTurns {body : Expr} {bounds : Bounds} {setting : Setting} : ∀ {fuel : Nat} {rounds : Rounds},
    rounds.drive job apply body bounds setting fuel = takeTurns (turn job apply body bounds setting) .ok fuel rounds
  | 0, _ => rfl
  | fuel + 1, rounds => by
    rw [drive_succ, takeTurns]
    congr
    funext next
    cases next with
    | inl r => rfl
    | inr further => exact drive_eq_takeTurns

end Rounds

end Packrat

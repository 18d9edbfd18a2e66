/-
Trying an expression time and again. A part of a sequence and the body of a repetition are tried in the same way: where
they fail, they are tried again behind what can be skipped. So an expression that is tried like this again and again, each
time where its value ends, has the same values whichever loop tries it. The loops take a turn for each try; here this is
shown for single turns of both, and for all the turns of a repetition.
-/
import Packrat.Proofs.Parse.Collecting
import Packrat.Proofs.Parse.Turns

namespace Packrat

/-! ## Skipping and gathering -/

namespace Accumulator

variable {input : List Char} {acc : Accumulator} {p q : Position}

/-- Input is skipped up to a position. -/
def skipTo (acc : Accumulator) (p : Position) : Accumulator :=
  if acc.begun then { acc with cursor := p } else { acc with cursor := p, start := p, stop := p }

@[simp] theorem cursor_skipTo : (acc.skipTo p).cursor = p := by
  unfold skipTo
  split <;> rfl

@[simp] theorem results_skipTo : (acc.skipTo p).results = acc.results := by
  unfold skipTo
  split <;> rfl

@[simp] theorem begun_skipTo : (acc.skipTo p).begun = acc.begun := by
  unfold skipTo
  split <;> rfl

@[simp] theorem skipTo_skipTo : (acc.skipTo p).skipTo q = acc.skipTo q := by
  obtain ⟨start, stop, cursor, begun, results⟩ := acc
  cases begun <;> rfl

theorem skip_eq_skipTo (l : Location) : acc.skip input l = acc.skipTo (acc.cursor.moveTo input l) := rfl

@[simp] theorem skipTo_new : (new p).skipTo p = new p := rfl

/-- Where a value ends nothing is to be skipped. -/
theorem skipTo_add {t : Tree} :
    ((acc.skipTo p).add input t).skipTo (p.moveTo input t.extent.stop) = (acc.skipTo p).add input t := by
  unfold skipTo
  split <;> rfl

/-- Once something was collected, skipping does not change the tree. -/
theorem tree_skipTo (h : acc.begun = true) : (acc.skipTo p).tree input = acc.tree input := by
  unfold skipTo
  rw [if_pos h]
  rfl

theorem skip?_skipTo (l : Location) : (acc.skipTo p).skip? input l =
    ((new p).skip? input l).map fun skipped => acc.skipTo skipped.cursor := by
  unfold skip?
  rw [cursor_skipTo, show (new p).cursor = p from rfl]
  split
  · rfl
  · rw [Option.map_some, skip_eq_skipTo, skip_eq_skipTo, skipTo_skipTo, cursor_skipTo, cursor_skipTo]
    rfl

/-- Collects values at the positions where they were found. -/
def gather (input : List Char) (acc : Accumulator) (found : List (Position × Tree)) : Accumulator :=
  found.foldl (fun acc found => (acc.skipTo found.1).add input found.2) acc

theorem gather_cons {found : List (Position × Tree)} {t : Tree} :
    acc.gather input ((p, t) :: found) = ((acc.skipTo p).add input t).gather input found := rfl

theorem results_gather (found : List (Position × Tree)) :
    (acc.gather input found).results.toList = acc.results.toList ++ found.map (·.2) := by
  induction found generalizing acc with
  | nil => simp [gather]
  | cons found others ih =>
    rw [gather_cons, ih]
    simp

theorem begun_gather (found : List (Position × Tree)) (h : acc.begun = true) : (acc.gather input found).begun = true := by
  induction found generalizing acc with
  | nil => exact h
  | cons found others ih =>
    rw [gather_cons]
    exact ih rfl

end Accumulator

/-! ## Trying again -/

section

variable {job : Job} {apply : Applier} {body : Expr} {setting : Setting} {acc : Accumulator} {p : Position}

/-- It depends on the position alone what is skipped there. -/
theorem skipBetween_skipTo : skipBetween job apply setting (acc.skipTo p) = (do
    match ← skipBetween job apply setting (.new p) with
    | .ok skipped? => return .ok (skipped?.map fun skipped => acc.skipTo skipped.cursor)
    | .error error => return .error error) := by
  unfold skipBetween
  split
  · simp only [pure_bind, Option.map_none]
  · simp only [bind_assoc, Accumulator.cursor_skipTo]
    congr
    funext a
    rcases a with v | suspension | error
    · simp only [pure_bind]
      cases (Attempt.settled v).skipStop? with
      | none => rfl
      | some stop => rw [Option.bind_some, Option.bind_some, Accumulator.skip?_skipTo]
    · rfl
    · simp only [pure_bind]

/-- Tries an expression. Where it fails and something can be skipped, it is to be tried again behind that. -/
def retry (job : Job) (apply : Applier) (body : Expr) (setting : Setting) (p : Position) :
    Eval (Attempt × Position ⊕ Position) := do
  match ← apply body (setting.moved p) with
  | .settled (.failed failure) =>
    match ← skipBetween job apply setting (.new p) with
    | .ok (some skipped) => return .inr skipped.cursor
    | .ok none => return .inl (.settled (.failed failure), p)
    | .error error => return .inl (.broken error, p)
  | attempt => return .inl (attempt, p)

theorem Rounds.mayGoOn_of {rounds : Rounds} {bounds : Bounds} (h : ∀ max ∈ bounds.max, rounds.matched < max) :
    rounds.mayGoOn bounds = true := by
  unfold mayGoOn
  cases hb : bounds.max with
  | none => rfl
  | some max => exact decide_eq_true (h max hb)

/-- What a repetition makes of an attempt after which the body is not tried again. -/
def Rounds.heed (job : Job) (rounds : Rounds) : Attempt → Except Attempt Rounds ⊕ Rounds
  | .settled (.matched tree) =>
    let further := rounds.next (rounds.collected.add job.input tree)
    if tree.extent.stop ≤ rounds.collected.cursor.location then .inl (.ok further) else .inr further
  | .settled (.omitted span) =>
    if span.stop ≤ rounds.collected.cursor.location then .inl (.ok rounds)
    else .inr (rounds.next (rounds.collected.pass job.input span.stop))
  | .settled (.silent .tookNothing) | .settled (.failed _) => .inl (.ok rounds)
  | .settled (.silent why) => .inl (.error (.settled (.silent why)))
  | .recursion _ => .inl (.error (.recursion none))
  | .broken error => .inl (.error (.broken error))

theorem Rounds.heed_matched {rounds : Rounds} {t : Tree} (h : rounds.collected.cursor.location < t.extent.stop) :
    rounds.heed job (.settled (.matched t)) = .inr (rounds.next (rounds.collected.add job.input t)) :=
  if_neg (Location.not_le.2 h)

theorem Rounds.turn_eq_retry {bounds : Bounds} {matched : Nat} (h : (Rounds.mk acc matched).mayGoOn bounds = true) :
    Rounds.turn job apply body bounds setting ⟨acc.skipTo p, matched⟩ =
      (Sum.elim (fun tried => (Rounds.mk (acc.skipTo tried.2) matched).heed job tried.1)
        fun q => .inr ⟨acc.skipTo q, matched⟩) <$> retry job apply body setting p := by
  have h : (Rounds.mk (acc.skipTo p) matched).mayGoOn bounds = true := h
  unfold Rounds.turn retry
  simp only [h, Accumulator.cursor_skipTo, Bool.not_true, Bool.false_eq_true, if_false, map_bind]
  congr
  funext a
  rcases a with (t | (_ | _ | _) | span | failure) | suspension | error
  · simp only [map_pure, Sum.elim_inl, Rounds.heed, Accumulator.cursor_skipTo]
    by_cases h : t.extent.stop ≤ p.location
    · simp only [if_pos h]
    · simp only [if_neg h]
  · rfl
  · rfl
  · rfl
  · simp only [map_pure, Sum.elim_inl, Rounds.heed, Accumulator.cursor_skipTo]
    by_cases h : span.stop ≤ p.location
    · simp only [if_pos h]
    · simp only [if_neg h]
  · simp only [skipBetween_skipTo, bind_assoc, map_bind]
    congr
    funext skipped
    rcases skipped with error | (_ | collected) <;> simp [Rounds.heed]
  · rfl
  · rfl

/-- What a sequence makes of an attempt after which the part is not tried again. -/
def Run.heed (job : Job) (run : Run) : Attempt → Except Attempt Run ⊕ Run
  | .settled (.matched tree) => .inr (run.next (run.collect job.input tree) none)
  | .settled (.omitted span) => .inr (run.next (run.collected.pass job.input span.stop) none)
  | .settled (.silent why) => .inr (run.next run.collected (some why))
  | .recursion (some suspension) => .inl (.error (.recursion (some (suspension ++ [.sequence run]))))
  | attempt => .inl (.error attempt)

theorem Run.on_turn_eq_retry {run : Run} {s : Session} (hp : run.parts[run.done]? = some body)
    (hre : run.done = 0 → s.reenters body p.location = false) :
    (Run.turn job apply { run with collected := acc.skipTo p }).on s =
      Prod.map (Sum.elim (fun tried => ({ run with collected := acc.skipTo tried.2 } : Run).heed job tried.1)
        fun q => .inr { run with collected := acc.skipTo q }) id ((retry job apply body run.setting p).on s) := by
  have hturn : (Run.turn job apply { run with collected := acc.skipTo p }).on s =
      (apply body (run.setting.moved p) >>= ({ run with collected := acc.skipTo p } : Run).take job apply).on s := by
    unfold Run.turn
    simp only [hp]
    rw [Eval.on_bind, Eval.on_get]
    unfold Run.here
    simp only [Accumulator.cursor_skipTo]
    rw [if_neg]
    rintro ⟨hd, hs⟩
    exact absurd ((hre hd).symm.trans hs) Bool.false_ne_true
  rw [hturn]
  unfold retry
  rw [Eval.on_bind, Eval.on_bind]
  generalize (apply body (run.setting.moved p)).on s = tried
  obtain ⟨a, s'⟩ := tried
  unfold Run.take Run.absorb
  rcases a with (t | why | span | failure) | (_ | suspension) | error
  · rfl
  · rfl
  · rfl
  · simp only [skipBetween_skipTo, bind_assoc, Eval.on_bind]
    generalize (skipBetween job apply run.setting (.new p)).on s' = skipped
    obtain ⟨skipped, s''⟩ := skipped
    rcases skipped with error | (_ | collected) <;> rfl
  · rfl
  · rfl
  · rfl

/-! ## Unrolling -/

/-- An expression is tried at a position, and again behind what can be skipped as long as it fails. The last of so many
tries is made at another position, and comes to an attempt. -/
abbrev Retries (job : Job) (apply : Applier) (body : Expr) (setting : Setting) (tries : Nat) (p : Position) (s : Session)
    (a : Attempt) (q : Position) (t : Session) : Prop :=
  EndsIn (retry job apply body setting) tries (retry job apply body setting p) s (a, q) t

/-- An expression is tried time and again, each time where its value before ended. In so many tries it has these values,
found at these positions. -/
inductive Unrolls (job : Job) (apply : Applier) (body : Expr) (setting : Setting) :
    Nat → List (Position × Tree) → Position → Session → Position → Session → Prop
  | nil {p : Position} {s : Session} : Unrolls job apply body setting 0 [] p s p s
  | cons {tries others : Nat} {found : List (Position × Tree)} {p q p' : Position} {s s' t : Session} {v : Tree} :
    Retries job apply body setting tries p s (.settled (.matched v)) q s' →
    Unrolls job apply body setting others found (q.moveTo job.input v.extent.stop) s' p' t →
    Unrolls job apply body setting (tries + others) ((q, v) :: found) p s p' t

/-- A failure or an error of the grammar. -/
def Attempt.Refused : Attempt → Prop
  | .settled (.failed _) | .broken _ => True
  | _ => False

/-- Tried time and again, an expression has values that end further on than where they are found, until it fails. -/
def Yielding (job : Job) (apply : Applier) (body : Expr) (setting : Setting) (p : Position) (s : Session) : Prop :=
  ∀ tries found p' s' others a q t, Unrolls job apply body setting tries found p s p' s' →
    Retries job apply body setting others p' s' a q t → a.Refused ∨ ∃ v, a = .settled (.matched v) ∧ q.location < v.extent.stop

variable {tries tries' m k : Nat} {found found' : List (Position × Tree)} {q p' p'' : Position} {s s' t : Session}
  {a : Attempt} {v : Tree}

/-- There are no more values than up to where the expression is refused. -/
theorem Unrolls.length_le (h : Unrolls job apply body setting tries found p s p' s')
    (hlast : Retries job apply body setting m p' s' a q t) (ha : a.Refused)
    (h' : Unrolls job apply body setting tries' found' p s p'' s'') : found'.length ≤ found.length := by
  induction h generalizing tries' found' with
  | nil =>
    cases h' with
    | nil => exact Nat.le_refl _
    | cons hv =>
      cases (hlast.unique hv).1
      exact ha.elim
  | cons hv _ ih =>
    cases h' with
    | nil => exact Nat.zero_le _
    | cons hv' h' =>
      obtain ⟨heq, rfl⟩ := hv.unique hv'
      cases heq
      exact Nat.succ_le_succ (ih hlast h')

namespace Yielding

theorem first (h : Yielding job apply body setting p s) (hv : Retries job apply body setting m p s a q t) :
    a.Refused ∨ ∃ v, a = .settled (.matched v) ∧ q.location < v.extent.stop := h _ _ _ _ _ _ _ _ .nil hv

/-- A value ends further on. -/
theorem lt (h : Yielding job apply body setting p s) (hv : Retries job apply body setting m p s (.settled (.matched v)) q t) :
    q.location < v.extent.stop := by
  obtain hn | ⟨_, heq, hlt⟩ := h.first hv
  · exact hn.elim
  · cases heq
    exact hlt

theorem next (h : Yielding job apply body setting p s)
    (hv : Retries job apply body setting m p s (.settled (.matched v)) q t) :
    Yielding job apply body setting (q.moveTo job.input v.extent.stop) t :=
  fun _ _ _ _ _ _ _ _ hu => h _ _ _ _ _ _ _ _ (.cons hv hu)

theorem of_refused (hv : Retries job apply body setting m p s a q t) (ha : a.Refused) :
    Yielding job apply body setting p s := by
  intro _ _ _ _ _ _ _ _ hu hr
  cases hu with
  | nil =>
    cases (hv.unique hr).1
    exact .inl ha
  | cons hv' =>
    cases (hv.unique hv').1
    exact ha.elim

theorem of_matched (hv : Retries job apply body setting m p s (.settled (.matched v)) q t) (hlt : q.location < v.extent.stop)
    (h : Yielding job apply body setting (q.moveTo job.input v.extent.stop) t) : Yielding job apply body setting p s := by
  intro _ _ _ _ _ _ _ _ hu hr
  cases hu with
  | nil =>
    cases (hv.unique hr).1
    exact .inr ⟨v, rfl, hlt⟩
  | cons hv' hu =>
    obtain ⟨heq, rfl⟩ := hv.unique hv'
    cases heq
    exact h _ _ _ _ _ _ _ _ hu hr

theorem of_skipped (hq : (retry job apply body setting p).on s = (.inr q, t)) (h : Yielding job apply body setting q t) :
    Yielding job apply body setting p s := by
  intro _ _ _ _ _ _ _ _ hu hr
  cases hu with
  | nil =>
    cases hr with
    | last hq' => cases hq.symm.trans hq'
    | more hq' hr =>
      cases hq.symm.trans hq'
      exact h.first hr
  | cons hv hu =>
    cases hv with
    | last hq' => cases hq.symm.trans hq'
    | more hq' hv =>
      cases hq.symm.trans hq'
      exact h _ _ _ _ _ _ _ _ (.cons hv hu) hr

end Yielding

/-- How many values an expression has, tried time and again, if they end further on than where they are found and it
fails within so many tries. -/
def countValues (job : Job) (apply : Applier) (body : Expr) (setting : Setting) :
    (tries : Nat) → Position → Session → Option Nat
  | 0, _, _ => none
  | tries + 1, p, s =>
    match (retry job apply body setting p).on s with
    | (.inr q, t) => countValues job apply body setting tries q t
    | (.inl (.settled (.matched v), q), t) =>
      if q.location < v.extent.stop then
        (countValues job apply body setting tries (q.moveTo job.input v.extent.stop) t).map (· + 1)
      else none
    | (.inl (.settled (.failed _), _), _) | (.inl (.broken _, _), _) => some 0
    | _ => none

theorem of_countValues : ∀ {tries k : Nat} {p : Position} {s : Session},
    countValues job apply body setting tries p s = some k → Yielding job apply body setting p s ∧
      ∃ n found p' t m a q u, Unrolls job apply body setting n found p s p' t ∧ found.length = k ∧
        Retries job apply body setting m p' t a q u ∧ a.Refused
  | tries + 1, _, p, s, h => by
    unfold countValues at h
    split at h
    · next hq =>
      obtain ⟨hy, n, found, p', t, m, a, q, u, hu, hk, hr, ha⟩ := of_countValues h
      refine ⟨.of_skipped hq hy, ?_⟩
      cases hu with
      | nil => exact ⟨0, [], p, s, m + 1, a, q, u, .nil, hk, .more hq hr, ha⟩
      | cons hv hu => exact ⟨_, _, p', t, m, a, q, u, .cons (.more hq hv) hu, hk, hr, ha⟩
    · next hv =>
      split at h
      · next hlt =>
        obtain ⟨k, hk, rfl⟩ := Option.map_eq_some_iff.1 h
        obtain ⟨hy, n, found, p', t, m, a, q, u, hu, rfl, hr, ha⟩ := of_countValues hk
        exact ⟨.of_matched (.last hv) hlt hy, _, _, p', t, m, a, q, u, .cons (.last hv) hu, rfl, hr, ha⟩
      · cases h
    · next hv =>
      cases h
      exact ⟨.of_refused (.last hv) trivial, 0, [], p, s, 1, _, _, _, .nil, rfl, .last hv, trivial⟩
    · next hv =>
      cases h
      exact ⟨.of_refused (.last hv) trivial, 0, [], p, s, 1, _, _, _, .nil, rfl, .last hv, trivial⟩
    · cases h

/-- A repetition takes a turn for each try of its body. -/
theorem Retries.rounds {bounds : Bounds} {matched : Nat} {r : Except Attempt Rounds} {u : Session}
    (h : Retries job apply body setting tries p s a q t) (hgo : (Rounds.mk acc matched).mayGoOn bounds = true)
    (hend : EndsIn (Rounds.turn job apply body bounds setting) m (pure ((Rounds.mk (acc.skipTo q) matched).heed job a)) t r u) :
    EndsIn (Rounds.turn job apply body bounds setting) (tries - 1 + m)
      (Rounds.turn job apply body bounds setting ⟨acc.skipTo p, matched⟩) s r u :=
  EndsIn.follow (f := fun p => Rounds.mk (acc.skipTo p) matched)
    (g := fun tried => (Rounds.mk (acc.skipTo tried.2) matched).heed job tried.1) (G := fun _ _ => True)
    (fun _ _ _ => by rw [Rounds.turn_eq_retry hgo]; rfl) (fun _ _ _ _ _ _ => trivial) trivial h hend

/-- What was gathered leads to where the last value ends. -/
theorem Unrolls.skipTo_gather (h : Unrolls job apply body setting tries found p s p' s') (hacc : acc.skipTo p = acc) :
    (acc.gather job.input found).skipTo p' = acc.gather job.input found := by
  induction h generalizing acc with
  | nil => exact hacc
  | cons _ _ ih => exact ih Accumulator.skipTo_add

/-- As long as the bounds allow it, a repetition has the values that its body has when tried time and again. -/
theorem Unrolls.rounds {bounds : Bounds} {matched : Nat} {r : Except Attempt Rounds} {u : Session}
    (h : Unrolls job apply body setting tries found p s p' s') (hy : Yielding job apply body setting p s)
    (hacc : acc.skipTo p = acc) (hmax : ∀ max ∈ bounds.max, matched + found.length ≤ max)
    (hend : EndsIn (Rounds.turn job apply body bounds setting) m
      (Rounds.turn job apply body bounds setting ⟨acc.gather job.input found, matched + found.length⟩) s' r u) :
    EndsIn (Rounds.turn job apply body bounds setting) (tries + m)
      (Rounds.turn job apply body bounds setting ⟨acc, matched⟩) s r u := by
  induction h generalizing acc matched with
  | nil => rwa [Nat.zero_add]
  | @cons tries others found p q p' s s' t v hv _ ih =>
    have hgo : (Rounds.mk acc matched).mayGoOn bounds = true := Rounds.mayGoOn_of fun max hm => by
      have := hmax max hm
      rw [List.length_cons] at this
      show matched < max
      omega
    have hlater : EndsIn (Rounds.turn job apply body bounds setting) (others + m)
        (Rounds.turn job apply body bounds setting ⟨(acc.skipTo q).add job.input v, matched + 1⟩) s' r u := by
      refine ih (hy.next hv) Accumulator.skipTo_add (fun max hm => ?_) ?_
      · have := hmax max hm
        rw [List.length_cons] at this
        omega
      · rwa [Nat.add_assoc, Nat.add_comm 1, ← List.length_cons, ← Accumulator.gather_cons]
    have hlt : (acc.skipTo q).cursor.location < v.extent.stop := by
      rw [Accumulator.cursor_skipTo]
      exact hy.lt hv
    have hround := hv.rounds hgo (.more (by rw [Rounds.heed_matched hlt]; rfl) hlater)
    have hpos := hv.pos
    rw [hacc] at hround
    rwa [show tries + others + m = tries - 1 + (others + m + 1) by omega]

end

end Packrat

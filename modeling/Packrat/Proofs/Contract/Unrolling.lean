/-
A repetition is a sequence of as many copies of its body as can be read in a row within its bounds. Where there is room
for all their turns, both loops go through the same tries, in the course of which the body has the same values: so the
repetition has the value that the sequence has. The skipper is tried once more where nothing else is left to read, and
what it skips then is left out. But when it comes to an error of the grammar there, so does the repetition.
-/
import Mathlib.Order.Bounds.Basic
import Packrat.Parse.Matcher
import Packrat.Proofs.Contract.Claims
import Packrat.Proofs.Contract.Reliance
import Packrat.Proofs.Correspondence.Defaulting
import Packrat.Proofs.Parse.Retries

namespace Packrat

open Stance

/-! ## Where there is room -/

section

variable {job : Job} {m : Mark} {depth : Nat} {apply : Applier} {body : Expr} {setting : Setting}

/-- Whatever comes of expressions is claimed, and the expression may be tried. -/
structure Repeatable (job : Job) (m : Mark) (depth : Nat) (apply : Applier) (body : Expr) (setting : Setting) : Prop where
  kept : job.claimed.presence.KeptBy m depth apply
  has : job.grammar.Has body
  mode : job.grammar.Mode setting.skipping
  behind : m.Behind setting.location

/-- A position behind the one of a setting, and a session there. -/
structure Reached (job : Job) (m : Mark) (depth : Nat) (setting : Setting) (p : Position) (s : Session) : Prop where
  sits : job.claimed.At p
  forward : setting.location ≤ p.location
  fits : (job.claimed.presence.stance m depth).Fits s

variable {tries : Nat} {found : List (Position × Tree)} {p q p' : Position} {s s' t : Session} {a : Attempt} {v : Tree}

/-- Behind where a rule was entered, none is entered again at the same place. -/
theorem Reached.not_reenters (hp : Reached job m depth setting p s) (hm : m.Behind setting.location)
    (hlt : setting.location < p.location) : s.reenters body p.location = false := by
  unfold Session.reenters
  split
  · next name =>
    refine beq_eq_false_iff_ne.2 fun he => ?_
    have hmark : m = some (name, p.location) := hp.fits.mark.symm.trans he
    exact Location.not_le.2 hlt (hm _ _ hmark)
  · rfl

/-- A sequence of so many copies of an expression, with some of them done. -/
def Run.copies (body : Expr) (count : Nat) (setting : Setting) (done : Nat) (acc : Accumulator) : Run :=
  { Run.new (List.replicate count body) false setting done with collected := acc }

namespace Repeatable

variable (h : Repeatable job m depth apply body setting)
include h

/-- What is skipped before another try leads further on. -/
theorem retry_kept (hp : job.claimed.At p) (hle : setting.location ≤ p.location) :
    (job.claimed.presence.stance m depth).Yields True (retry job apply body setting p) fun
      | .inl tried => tried.2 = p ∧ job.claimed.presence.Comes (fun _ => True) body p tried.1
      | .inr q => job.claimed.At q ∧ p.location < q.location := by
  refine Contract.bind (h.kept body (setting.moved p) ⟨h.has, hp, h.mode, h.behind.mono hle⟩) fun a ha => ?_
  split
  · next failure =>
    refine Contract.bind (Contract.skipBetween_kept h.kept h.mode hp (h.behind.mono hle)) fun skipped hs => ?_
    split
    · next collected =>
      obtain ⟨stop, hskips, rfl⟩ := hs
      obtain ⟨_, _, -, -, -, hlt⟩ := id hskips
      have hlt : p.location < stop := hlt
      have hcursor : ((Accumulator.new p).skip job.input stop).cursor = p.moveTo job.input stop := Accumulator.cursor_skip stop
      rw [hcursor]
      refine Contract.pure ⟨job.claimed.moveTo hp (Ground.presence_skips hskips), ?_⟩
      rwa [Position.location_moveTo_of_le (Location.le_of_lt hlt)]
    · exact Contract.pure ⟨rfl, ha.weaken⟩
    · exact Contract.pure ⟨rfl, trivial⟩
  · exact Contract.pure ⟨rfl, ha.weaken⟩

theorem on_retry (hp : Reached job m depth setting p s) (hon : (retry job apply body setting p).on s = (.inr q, t)) :
    Reached job m depth setting q t ∧ p.location < q.location := by
  have hkept := ((h.retry_kept hp.sits hp.forward s).2 trivial hp.fits).resolve_left id
  rw [hon] at hkept
  obtain ⟨⟨hq, hlt⟩, ht⟩ := hkept
  exact ⟨⟨hq, Location.le_trans hp.forward (Location.le_of_lt hlt), ht⟩, hlt⟩

/-- Each try but the last leads to a place ahead. -/
theorem retries (hp : Reached job m depth setting p s) (hr : Retries job apply body setting tries p s a q t) :
    Reached job m depth setting q t ∧ job.claimed.presence.Comes (fun _ => True) body q a ∧
      tries + job.placesAhead q.location ≤ job.placesAhead p.location + 1 := by
  unfold Retries at hr
  generalize hx : retry job apply body setting p = x at hr
  generalize hy : (a, q) = r at hr
  induction hr generalizing p with
  | last hon =>
    subst hx hy
    have hkept := ((h.retry_kept hp.sits hp.forward _).2 trivial hp.fits).resolve_left id
    rw [hon] at hkept
    obtain ⟨⟨hq, hcame⟩, ht⟩ := hkept
    cases show q = p from hq
    exact ⟨⟨hp.sits, hp.forward, ht⟩, hcame, Nat.le_of_eq (Nat.add_comm _ _)⟩
  | more hon _ ih =>
    subst hx
    obtain ⟨hq, hlt⟩ := h.on_retry hp hon
    obtain ⟨hreached, hcame, hle⟩ := ih hq rfl hy
    have := Job.placesAhead_lt (job.claimed.location hq.sits) hlt
    exact ⟨hreached, hcame, by omega⟩

theorem exists_retries (hp : Reached job m depth setting p s) :
    ∃ tries a q t, Retries job apply body setting tries p s a q t := by
  have hturn (p : Position) (hp : job.claimed.At p ∧ setting.location ≤ p.location) :
      (job.claimed.presence.stance m depth).Yields True (retry job apply body setting p)
        (Onward (fun _ => True) (fun p => job.claimed.At p ∧ setting.location ≤ p.location)
          (fun p => job.placesAhead p.location) (job.placesAhead p.location)) := by
    refine (h.retry_kept hp.1 hp.2).post fun next _ hnext => ?_
    cases next with
    | inl tried => trivial
    | inr q =>
      obtain ⟨hq, hlt⟩ := hnext
      exact ⟨⟨hq, Location.le_trans hp.2 (Location.le_of_lt hlt)⟩, Job.placesAhead_lt (job.claimed.location hq) hlt⟩
  obtain ⟨tries, ⟨a, q⟩, t, -, hends, -⟩ := exists_endsIn hturn (fun _ => id) (hturn p ⟨hp.sits, hp.forward⟩) hp.fits
  exact ⟨tries, a, q, t, hends⟩

/-- Another try where a value ends is made further on. -/
theorem next (hp : Reached job m depth setting p s) (hr : Retries job apply body setting tries p s (.settled (.matched v)) q t)
    (hlt : q.location < v.extent.stop) : Reached job m depth setting (q.moveTo job.input v.extent.stop) t ∧
      tries + job.placesAhead (q.moveTo job.input v.extent.stop).location ≤ job.placesAhead p.location := by
  obtain ⟨hq, hcame, hle⟩ := h.retries hp hr
  have hlies : v.Lies job.claimed.Loc := hcame
  have hat := job.claimed.moveTo hq.sits hlies.stop
  have hfurther : q.location < (q.moveTo job.input v.extent.stop).location := by
    rwa [Position.location_moveTo_of_le (Location.le_of_lt hlt)]
  have := Job.placesAhead_lt (job.claimed.location hat) hfurther
  exact ⟨⟨hat, Location.le_trans hq.forward (Location.le_of_lt hfurther), hq.fits⟩, by omega⟩

/-- Trying time and again takes no more tries than there are places ahead. -/
theorem unrolls (hp : Reached job m depth setting p s) (hy : Yielding job apply body setting p s)
    (hu : Unrolls job apply body setting tries found p s p' s') : Reached job m depth setting p' s' ∧
      Yielding job apply body setting p' s' ∧ tries + job.placesAhead p'.location ≤ job.placesAhead p.location := by
  induction hu with
  | nil => exact ⟨hp, hy, Nat.le_of_eq (Nat.zero_add _)⟩
  | cons hv _ ih =>
    obtain ⟨hnext, hle⟩ := h.next hp hv (hy.lt hv)
    obtain ⟨hlast, hy', hle'⟩ := ih hnext (hy.next hv)
    exact ⟨hlast, hy', by omega⟩

/-- It comes to an end, since the expression is refused or there are as many values as are wanted. -/
theorem exists_unrolls (hp : Reached job m depth setting p s) (hy : Yielding job apply body setting p s) (max : Option Nat) :
    ∃ tries found p' t, Unrolls job apply body setting tries found p s p' t ∧ (∀ most ∈ max, found.length ≤ most) ∧
      (max = some found.length ∨ max ≠ some found.length ∧
        ∃ others a q u, Retries job apply body setting others p' t a q u ∧ a.Refused) := by
  induction hahead : job.placesAhead p.location using Nat.strongRecOn generalizing p s max with
  | ind ahead ih =>
    by_cases hmax : max = some 0
    · exact ⟨0, [], p, s, .nil, by simp [hmax], .inl hmax⟩
    obtain ⟨tries, a, q, t, hr⟩ := h.exists_retries hp
    obtain ha | ⟨v, rfl, hlt⟩ := hy.first hr
    · exact ⟨0, [], p, s, .nil, by simp, .inr ⟨hmax, tries, a, q, t, hr, ha⟩⟩
    obtain ⟨hnext, hle⟩ := h.next hp hr hlt
    have := hr.pos
    obtain ⟨others, found, p', u, hu, hle, hend⟩ := ih _ (by omega) hnext (hy.next hr) (max.map (· - 1)) rfl
    refine ⟨_, (q, v) :: found, p', u, .cons hr hu, ?_, ?_⟩
    · rintro most rfl
      have hle := hle (most - 1) rfl
      have hne : most ≠ 0 := fun h => hmax (congrArg some h)
      rw [List.length_cons]
      omega
    · cases max with
      | none => exact .inr ⟨nofun, hend.resolve_left nofun |>.2⟩
      | some most =>
        have hne : most ≠ 0 := fun h => hmax (congrArg some h)
        simp only [Option.map_some, Option.some.injEq, List.length_cons, ne_eq] at hend ⊢
        rcases hend with hend | ⟨hn, hend⟩
        · exact .inl (by omega)
        · exact .inr ⟨by omega, hend⟩

/-- A sequence of copies takes a turn for each try of the copy that is next. -/
theorem copy (hp : Reached job m depth setting p s) (hr : Retries job apply body setting tries p s a q t)
    {count done turns : Nat} {acc : Accumulator} {r : Except Attempt Run} {u : Session}
    (hpart : (List.replicate count body)[done]? = some body) (hre : done = 0 → s.reenters body p.location = false)
    (hend : EndsIn (Run.turn job apply) turns (pure ((Run.copies body count setting done (acc.skipTo q)).heed job a)) t r u) :
    EndsIn (Run.turn job apply) (tries - 1 + turns) (Run.turn job apply (Run.copies body count setting done (acc.skipTo p)))
      s r u := by
  refine EndsIn.follow (f := fun p => Run.copies body count setting done (acc.skipTo p))
    (g := fun tried => (Run.copies body count setting done (acc.skipTo tried.2)).heed job tried.1)
    (G := fun p s => Reached job m depth setting p s ∧ (done = 0 → s.reenters body p.location = false))
    (fun p s hps => ?_) (fun p s z t hps hon => ?_) ⟨hp, hre⟩ hr hend
  · let run := Run.copies body count setting done acc
    have hpart : run.parts[run.done]? = some body := hpart
    exact Run.on_turn_eq_retry hpart hps.2
  · -- where something was skipped, the rule entered last is not entered again
    obtain ⟨hz, hlt⟩ := h.on_retry hps.1 hon
    exact ⟨hz, fun _ => hz.not_reenters h.behind (Location.lt_of_le_of_lt hps.1.forward hlt)⟩

/-- A sequence of copies of the expression has the values that the expression has when tried time and again, if it
does not come back to the rule entered last. -/
theorem copies (hp : Reached job m depth setting p s) (hy : Yielding job apply body setting p s)
    (hu : Unrolls job apply body setting tries found p s p' s') {count done turns : Nat} {acc : Accumulator}
    {r : Except Attempt Run} {u : Session} (hcount : done + found.length = count) (hacc : acc.skipTo p = acc)
    (hre : done = 0 → s.reenters body p.location = false)
    (hend : EndsIn (Run.turn job apply) turns
      (Run.turn job apply (Run.copies body count setting count (acc.gather job.input found))) s' r u) :
    EndsIn (Run.turn job apply) (tries + turns) (Run.turn job apply (Run.copies body count setting done acc)) s r u := by
  induction hu generalizing done acc with
  | nil =>
    cases hcount
    rwa [Nat.zero_add]
  | @cons tries others found p q p' s s' t v hv _ ih =>
    rw [List.length_cons] at hcount
    have hpart : (List.replicate count body)[done]? = some body := by
      rw [List.getElem?_replicate, if_pos (by omega)]
    have hlater : EndsIn (Run.turn job apply) (others + turns)
        (Run.turn job apply (Run.copies body count setting (done + 1) ((acc.skipTo q).add job.input v))) s' r u := by
      refine ih (h.next hp hv (hy.lt hv)).1 (hy.next hv) (by omega) Accumulator.skipTo_add nofun ?_
      rwa [← Accumulator.gather_cons]
    have hfollowed := h.copy hp hv hpart hre (.more rfl hlater)
    have hpos := hv.pos
    rw [hacc] at hfollowed
    rwa [show tries + others + turns = tries - 1 + (others + turns + 1) by omega]

end Repeatable

/-! ## What comes of it -/

/-- Of a repetition whose body had some values, when tried time and again, and of which nothing is left to try at a place:
without enough of them it fails there. Without any, and without need for one, it is what it falls back to, put where it
began, or silent. One value stands for itself, inside the stretch that it covers. Several values are what as many copies
of the body come to in a sequence, unless that would come back to the rule entered last. -/
structure Unrolled (job : Job) (apply : Applier) (body : Expr) (bounds : Bounds) (fallback : Option Tree) (setting : Setting)
    (s : Session) (found : List (Position × Tree)) (place : Position) (a : Attempt) : Prop where
  few : found.length < bounds.min →
    a = .failure (.tooFew bounds.min found.length (place.rest job.input)) place.location
  lapse : found = [] → bounds.min = 0 →
    a = .settled (fallback.elim (.silent .tookNothing) fun t => .matched (t.movedTo (.empty setting.location)))
  one : ∀ q v, found = [(q, v)] → bounds.min ≤ 1 → a = .settled (.matched (v.inside
    (.ofPositions job.input (q.moveTo job.input v.extent.start) (q.moveTo job.input v.extent.stop))))
  many : 2 ≤ found.length → bounds.min ≤ found.length →
    (∃ span, a = .settled (.matched (.list (.own span) (found.map (·.2))))) ∧
    (s.reenters body setting.location = false →
      ((evaluate job apply (.sequence (List.replicate found.length body)) setting).on s).1 = a)

/-- What comes of a repetition in such a session, and after these values: no more of them are allowed, or its body fails,
or there is an error of the grammar. -/
inductive Repeated (job : Job) (apply : Applier) (body : Expr) (bounds : Bounds) (fallback : Option Tree) (setting : Setting)
    (s : Session) (found : List (Position × Tree)) (p : Position) (t : Session) : Attempt → Prop
  | filled {a : Attempt} : bounds.max = some found.length →
    Unrolled job apply body bounds fallback setting s found p a →
    Repeated job apply body bounds fallback setting s found p t a
  | failed {tries : Nat} {f : Failure} {q : Position} {u : Session} {a : Attempt} : bounds.max ≠ some found.length →
    Retries job apply body setting tries p t (.settled (.failed f)) q u →
    Unrolled job apply body bounds fallback setting s found q a →
    Repeated job apply body bounds fallback setting s found p t a
  | broken {tries : Nat} {error : GrammarError} {q : Position} {u : Session} : bounds.max ≠ some found.length →
    Retries job apply body setting tries p t (.broken error) q u →
    Repeated job apply body bounds fallback setting s found p t (.broken error)

/-- How many values within bounds an expression can have, tried time and again. -/
def unrollings (job : Job) (apply : Applier) (body : Expr) (bounds : Bounds) (setting : Setting) (s : Session) : Set Nat :=
  { count | (∀ max ∈ bounds.max, count ≤ max) ∧
    ∃ tries found p t, Unrolls job apply body setting tries found setting.position s p t ∧ found.length = count }

variable {bounds : Bounds} {fallback : Option Tree} {place : Position}

namespace Accumulator

variable {input : List Char}

/-- One value covers the stretch from where it starts to where it stops. -/
theorem tree_gather_singleton {o : Position} : ((new o).gather input [(q, v)]).tree input =
    v.inside (.ofPositions input (q.moveTo input v.extent.start) (q.moveTo input v.extent.stop)) := by
  have hstop : (((new o).skipTo q).add input v).stop = q.moveTo input v.extent.stop := stop_add rfl v
  show v.inside (.ofPositions input (q.moveTo input v.extent.start) (((new o).skipTo q).add input v).stop) = _
  rw [hstop]

theorem tree_gather_of_two {o : Position} (h : 2 ≤ found.length) : ((new o).gather input found).tree input =
    .list (.own (((new o).gather input found).span input)) (found.map (·.2)) := by
  have hresults : ((new o).gather input found).results.toList = found.map (·.2) := results_gather found
  unfold tree
  rw [hresults]
  split
  · next hone =>
    have := congrArg List.length hone
    rw [List.length_map, List.length_singleton] at this
    omega
  · rfl

end Accumulator

/-- So it is concluded. -/
theorem unrolled_conclude (hsequence : 2 ≤ found.length → s.reenters body setting.location = false →
    ((evaluate job apply (.sequence (List.replicate found.length body)) setting).on s).1 =
      .settled (.matched (((Accumulator.new setting.position).gather job.input found).tree job.input))) :
    Unrolled job apply body bounds fallback setting s found place (.settled (Rounds.conclude job bounds fallback
      setting.location ⟨((Accumulator.new setting.position).gather job.input found).skipTo place, found.length⟩)) := by
  have hvalue (hne : found ≠ []) (hmin : bounds.min ≤ found.length) : Rounds.conclude job bounds fallback setting.location
      ⟨((Accumulator.new setting.position).gather job.input found).skipTo place, found.length⟩ =
        .matched (((Accumulator.new setting.position).gather job.input found).tree job.input) := by
    have hresults : ((Accumulator.new setting.position).gather job.input found).results.isEmpty = false := by
      rw [← Array.isEmpty_toList, Accumulator.results_gather]
      simpa using hne
    have hbegun : ((Accumulator.new setting.position).gather job.input found).begun = true := by
      obtain ⟨⟨q, v⟩, others, rfl⟩ := List.exists_cons_of_ne_nil hne
      exact Accumulator.begun_gather others rfl
    have hlength := List.length_pos_of_ne_nil hne
    unfold Rounds.conclude
    simp only [Accumulator.results_skipTo, hresults, Accumulator.tree_skipTo hbegun]
    rw [if_neg (by omega), if_neg (by omega)]
    rfl
  constructor
  · intro hlt
    unfold Rounds.conclude
    simp only [Accumulator.cursor_skipTo]
    rw [if_neg (by omega), if_pos hlt]
    rfl
  · rintro rfl hmin
    unfold Rounds.conclude
    rw [if_pos ⟨rfl, hmin⟩]
    cases fallback <;> rfl
  · rintro q v rfl hmin
    rw [hvalue (List.cons_ne_nil _ _) hmin, Accumulator.tree_gather_singleton]
  · intro htwo hmin
    have hne : found ≠ [] := List.ne_nil_of_length_pos (by omega)
    rw [hvalue hne hmin]
    exact ⟨⟨_, congrArg (Attempt.settled ∘ Verdict.matched) (Accumulator.tree_gather_of_two htwo)⟩, hsequence htwo⟩

/-- What comes of a repetition when its rounds have come to an end. -/
def Rounds.outcome (job : Job) (bounds : Bounds) (fallback : Option Tree) (location : Location) :
    Except Attempt Rounds → Attempt
  | .ok rounds => .settled (rounds.conclude job bounds fallback location)
  | .error attempt => attempt

/-- A repetition whose rounds end in so many turns concludes from what they come to. -/
theorem on_repetition (hroomy : job.Roomy) {turns : Nat} (hturns : turns ≤ job.placesAhead setting.position.location + 1)
    {r : Except Attempt Rounds} {u : Session} (hends : EndsIn (Rounds.turn job apply body bounds setting) turns
      (Rounds.turn job apply body bounds setting ⟨.new setting.position, 0⟩) s r u) :
    ((evaluate job apply (.repetition body bounds fallback) setting).on s).1 =
      Rounds.outcome job bounds fallback setting.location r := by
  have hdrive : (Rounds.drive job apply body bounds setting (job.remaining setting.position + job.slack + 1)
      ⟨.new setting.position, 0⟩).on s = (r, u) := by
    rw [Rounds.drive_eq_takeTurns]
    refine hends.takeTurns ?_
    have := hroomy.placesAhead_le setting.position.location
    omega
  show ((tryRepetition job apply body bounds fallback setting).on s).1 = _
  unfold tryRepetition
  rw [Eval.on_bind, hdrive]
  cases r <;> rfl

namespace Repeatable

variable (h : Repeatable job m depth apply body setting)
include h

/-- A sequence of as many copies as there are values comes to these values. -/
theorem on_sequence (hroomy : job.Roomy) (hp : Reached job m depth setting setting.position s)
    (hy : Yielding job apply body setting setting.position s)
    (hu : Unrolls job apply body setting tries found setting.position s p t) (hre : s.reenters body setting.location = false) :
    ((evaluate job apply (.sequence (List.replicate found.length body)) setting).on s).1 =
      .settled (.matched (((Accumulator.new setting.position).gather job.input found).tree job.input)) := by
  let run := Run.new (List.replicate found.length body) false setting 0
  let last := Run.copies body found.length setting found.length ((Accumulator.new setting.position).gather job.input found)
  have hlast : (last.turn job apply).on t = (.inl (.ok last), t) := by
    unfold Run.turn
    rw [show last.parts[last.done]? = none from List.getElem?_eq_none (by simp [last, Run.copies, Run.new])]
    rfl
  have hends : EndsIn (Run.turn job apply) (tries + 1) (run.turn job apply) s (.ok last) t :=
    h.copies hp hy hu (Nat.zero_add _) Accumulator.skipTo_new (fun _ => hre) (.last hlast)
  have hfuel : tries + 1 ≤ run.fuel job := by
    have := (h.unrolls hp hy hu).2.2
    have := hroomy.placesAhead_le setting.position.location
    show tries + 1 ≤ run.parts.length + job.remaining run.collected.cursor + job.slack + 1
    omega
  have hdrive : (run.drive job apply (run.fuel job)).on s = (.ok last, t) := by
    rw [Run.drive_eq_takeTurns]
    exact hends.takeTurns hfuel
  show ((run.finish job apply).on s).1 = _
  rw [Run.finish_eq_ending, Eval.on_bind, hdrive]
  rfl

/-- What comes of a repetition is what comes of trying its body time and again. -/
theorem repeated (hroomy : job.Roomy) (hp : Reached job m depth setting setting.position s)
    (hy : Yielding job apply body setting setting.position s) : ∃ tries found p t,
      Unrolls job apply body setting tries found setting.position s p t ∧
      IsGreatest (unrollings job apply body bounds setting s) found.length ∧
      Repeated job apply body bounds fallback setting s found p t
        ((evaluate job apply (.repetition body bounds fallback) setting).on s).1 := by
  obtain ⟨tries, found, p, t, hu, hmax, hend⟩ := h.exists_unrolls hp hy bounds.max
  obtain ⟨hp', -, hle⟩ := h.unrolls hp hy hu
  let acc := (Accumulator.new setting.position).gather job.input found
  have hacc : acc.skipTo p = acc := hu.skipTo_gather Accumulator.skipTo_new
  have hunrolled (place : Position) : Unrolled job apply body bounds fallback setting s found place
      (.settled (Rounds.conclude job bounds fallback setting.location ⟨acc.skipTo place, found.length⟩)) :=
    unrolled_conclude fun _ => h.on_sequence hroomy hp hy hu
  have hrounds {turns : Nat} {r : Except Attempt Rounds} {u : Session} (hturns : turns ≤ job.placesAhead p.location + 1)
      (hends : EndsIn (Rounds.turn job apply body bounds setting) turns
        (Rounds.turn job apply body bounds setting ⟨acc, found.length⟩) t r u) :
      ((evaluate job apply (.repetition body bounds fallback) setting).on s).1 =
        Rounds.outcome job bounds fallback setting.location r := by
    rw [← Nat.zero_add found.length] at hends hmax
    exact on_repetition hroomy (by omega) (hu.rounds hy Accumulator.skipTo_new hmax hends)
  have hgreatest : IsGreatest (unrollings job apply body bounds setting s) found.length := by
    refine ⟨⟨hmax, tries, found, p, t, hu, rfl⟩, ?_⟩
    rintro _ ⟨hcount, _, found', _, _, hu', rfl⟩
    rcases hend with hfull | ⟨-, _, _, _, _, hr, ha⟩
    · exact hcount _ hfull
    · exact hu.length_le hr ha hu'
  refine ⟨tries, found, p, t, hu, hgreatest, ?_⟩
  rcases hend with hfull | ⟨hmore, others, a, q, u, hr, ha⟩
  · have hlast : (Rounds.turn job apply body bounds setting ⟨acc, found.length⟩).on t =
        (.inl (.ok ⟨acc, found.length⟩), t) := by
      unfold Rounds.turn Rounds.mayGoOn
      simp [hfull]
    rw [hrounds (Nat.le_add_left _ _) (.last hlast)]
    exact .filled hfull (hacc ▸ hunrolled p)
  · obtain ⟨-, -, hle'⟩ := h.retries hp' hr
    have hpos := hr.pos
    have hgo : (Rounds.mk acc found.length).mayGoOn bounds = true :=
      Rounds.mayGoOn_of fun max hm => Nat.lt_of_le_of_ne (hmax max hm) fun heq => hmore (hm.trans (congrArg some heq.symm))
    have hlast {r : Except Attempt Rounds} (hheed : (Rounds.mk (acc.skipTo q) found.length).heed job a = .inl r) := by
      have hends := hr.rounds hgo (.last (by rw [hheed]; rfl))
      rw [hacc] at hends
      exact hrounds (by omega) hends
    rcases a with (_ | _ | _ | failure) | _ | error
    case settled.failed =>
      rw [hlast rfl]
      exact .failed hmore hr (hunrolled q)
    case broken =>
      rw [hlast rfl]
      exact .broken hmore hr
    all_goals exact ha.elim

end Repeatable

/-- As many values as are counted are the most there can be, if bounds allow them. -/
theorem isGreatest_of_countValues {k : Nat} (h : countValues job apply body setting tries setting.position s = some k)
    (hmax : ∀ max ∈ bounds.max, k ≤ max) : IsGreatest (unrollings job apply body bounds setting s) k := by
  obtain ⟨-, n, found, p, t, _, _, _, _, hu, rfl, hr, ha⟩ := of_countValues h
  refine ⟨⟨hmax, n, found, p, t, hu, rfl⟩, ?_⟩
  rintro _ ⟨-, _, _, _, _, hu', rfl⟩
  exact hu.length_le hr ha hu'

/-- Where an expression is worked out, others can be tried from there on. -/
theorem Contract.Ready.within {C : Contract job} {e e' : Expr} {setting' : Setting} (h : C.Ready e setting s)
    (hhas : job.grammar.Has e') (hsits : C.At setting'.position) (hmode : job.grammar.Mode setting'.skipping)
    (hle : setting.location ≤ setting'.location) :
    C.Ready e' setting' ((s.missed job).deeper job e.reference? setting.location) := by
  refine ⟨h.deeper.memory, h.deeper.deepest, hhas, hsits, hmode, ?_⟩
  show Mark.Behind (Mark.inside s.entered e.reference? setting.location) setting'.location
  cases e.reference? with
  | none => exact h.admits.behind.mono hle
  | some name => exact Mark.behind_entered.mono hle

/-- Take a grammar without matchers from outside. It parses a text as it does without a default skipper that its start
rule overrides. In such a parse, every expression can be tried anywhere in the text to begin with; trying one leaves
a session in which others can be tried, and where one is worked out, others can be tried from there on. In such a
session, take a repetition of an expression that has values which end further on than where they are found, as long as
it does not fail. Then the repetition takes as many of them as there can be within its bounds. It fails, falls back, or
has their value, which is the one that as many copies of the expression have in a sequence, unless there is an error of
the grammar on the last try. -/
theorem Grammar.repetition_unrolls (g : Grammar) (hc : ∀ key, ¬ g.Has (.external key)) (options : Options)
    (externals : Externals) (input : List Char) (levels : Nat) :
    let job := Job.new g.inEffect (.rule g.start) options externals input
    (g.parse options externals input).result = (job.run (.rule g.start)).result ∧
    (∀ e (setting : Setting), job.grammar.Has e → setting.position.Sits input → job.grammar.Mode setting.skipping →
      job.claimed.presence.Ready e setting .start) ∧
    (∀ e setting e' setting' s, job.claimed.presence.Ready e setting s → job.claimed.presence.Ready e' setting' s →
      job.claimed.presence.Ready e' setting' ((applyWithin job levels e setting).on s).2) ∧
    (∀ e setting e' (setting' : Setting) s, job.claimed.presence.Ready e setting s → job.grammar.Has e' →
      job.claimed.At setting'.position → job.grammar.Mode setting'.skipping → setting.location ≤ setting'.location →
      job.claimed.presence.Ready e' setting' ((s.missed job).deeper job e.reference? setting.location)) ∧
    ∀ body bounds fallback setting s, job.claimed.presence.Ready (.repetition body bounds fallback) setting s →
      Yielding job (applyWithin job levels) body setting setting.position s → ∃ tries found p t,
        Unrolls job (applyWithin job levels) body setting tries found setting.position s p t ∧
        IsGreatest (unrollings job (applyWithin job levels) body bounds setting s) found.length ∧
        Repeated job (applyWithin job levels) body bounds fallback setting s found p t
          ((evaluate job (applyWithin job levels) (.repetition body bounds fallback) setting).on s).1 := by
  intro job
  have hroomy : job.Roomy := Job.roomy_new g options externals input
  have hC := Ground.presence_lawful (job.claimed_bears fun key h => hc key h.of_inEffect)
  refine ⟨g.parse_inEffect options externals input, fun e setting hhas hsits hmode =>
      ⟨Memory.keeps_empty, fun _ => Nat.le_refl _, hhas, job.claimed_of_sits hsits, hmode, nofun⟩,
    fun e setting e' setting' s h h' => h'.after (h.yields (hC.kept levels _ _ e setting h.admits)).2,
    fun e setting e' setting' s h => h.within, fun body bounds fallback setting s h hy => ?_⟩
  have hbody : Repeatable job s.entered s.depth (applyWithin job levels) body setting :=
    ⟨hC.kept levels _ _, h.admits.has.part List.mem_cons_self, h.admits.mode, h.admits.behind⟩
  exact hbody.repeated hroomy ⟨h.admits.sits, Location.le_refl _, h.fits⟩ hy

end

/-- The error of the grammar that an attempt came to. -/
def Attempt.error? : Attempt → Option GrammarError
  | .broken error => some error
  | _ => none

theorem Attempt.error?_eq_some {a : Attempt} {error : GrammarError} (h : a.error? = some error) : a = .broken error := by
  unfold error? at h
  split at h
  · cases h
    rfl
  · cases h

namespace Grammar

/-- A letter. -/
def letter : Expr := .literal ['a']

/-- Letters one after the other, with spaces in between. -/
def ofLettered (bounds : Bounds) (productions : List (String × Production)) : Grammar where
  start := "s"
  rules := [("s", .repetition letter bounds none), ("w", .literal [' '])]
  skipper := some (.rule "w")
  overrides := []
  productions
  kinds := ⟨[("w", none)]⟩

/-- Reading them. -/
def lettered (bounds : Bounds) (productions : List (String × Production)) (text : String) : Job :=
  .new (ofLettered bounds productions) (.rule "s") .standard .nothing text.toList

theorem lettered_has {bounds : Bounds} {productions : List (String × Production)} {text : String} :
    (lettered bounds productions text).grammar.Has (.repetition letter bounds none) :=
  .body (show (ofLettered bounds productions).rule? "s" = some _ from rfl)

theorem repetition_unrolls_letters : let job := lettered ⟨0, none⟩ [] "a a b"
    (∀ key, ¬ job.grammar.Has (.external key)) ∧
    job.claimed.presence.Ready (.repetition letter ⟨0, none⟩ none) .start .start ∧
    Yielding job (applyWithin job 8) letter .start .origin .start ∧ ∃ span items, items.length = 2 ∧
      ((evaluate job (applyWithin job 8) (.repetition letter ⟨0, none⟩ none) .start).on .start).1 =
        .settled (.matched (.list (.own span) items)) ∧
      ((evaluate job (applyWithin job 8) (.sequence [letter, letter]) .start).on .start).1 =
        .settled (.matched (.list (.own span) items)) := by
  intro job
  have hc : ∀ key, ¬ job.grammar.Has (.external key) := (textual_of_check (by decide +kernel)).internal
  have hcount : countValues job (applyWithin job 8) letter .start 5 .origin .start = some 2 := by decide +kernel
  have hy := (of_countValues hcount).1
  have h := (ofLettered ⟨0, none⟩ []).repetition_unrolls hc .standard .nothing "a a b".toList 8
  rw [inEffect_of_override?_eq_none rfl, show Job.new (ofLettered _ _) (.rule (ofLettered _ _).start) _ _ _ = job from rfl] at h
  obtain ⟨-, hstart, -, -, hunrolls⟩ := h
  have hready := hstart _ .start lettered_has Position.sits_origin .standard
  refine ⟨hc, hready, hy, ?_⟩
  obtain ⟨tries, found, p, t, -, hgreatest, hrepeated⟩ := hunrolls _ _ _ _ _ hready hy
  have hlength : found.length = 2 := hgreatest.unique (isGreatest_of_countValues hcount nofun)
  have hvalue : ((evaluate job (applyWithin job 8) (.repetition letter ⟨0, none⟩ none) .start).on .start).1.tree?.isSome =
      true := by
    decide +kernel
  generalize ((evaluate job _ (.repetition letter _ _) _).on _).1 = a at hrepeated hvalue ⊢
  cases hrepeated with
  | filled hfull => cases hfull
  | failed _ _ h =>
    obtain ⟨⟨span, ha⟩, hsequence⟩ := h.many (Nat.le_of_eq hlength.symm) (Nat.zero_le _)
    rw [hlength] at hsequence
    exact ⟨span, found.map (·.2), by rw [List.length_map, hlength], ha, (hsequence rfl).trans ha⟩
  | broken => cases hvalue

/-- One letter can be read. But then the skipper takes a space of which no node can be made, and that is what comes of the
repetition. -/
theorem repetition_breaks_off : let job := lettered ⟨1, none⟩ [("w", ⟨["w"], ["f", "g"]⟩)] "a b"
    (∀ key, ¬ job.grammar.Has (.external key)) ∧ Yielding job (applyWithin job 8) letter .start .origin .start ∧
      IsGreatest (unrollings job (applyWithin job 8) letter ⟨1, none⟩ .start .start) 1 ∧
      ((evaluate job (applyWithin job 8) (.repetition letter ⟨1, none⟩ none) .start).on .start).1 =
        .broken (.wrongFieldCount "w" 2 1) := by
  intro job
  have hcount : countValues job (applyWithin job 8) letter .start 5 .origin .start = some 1 := by decide +kernel
  exact ⟨(textual_of_check (by decide +kernel)).internal, (of_countValues hcount).1, isGreatest_of_countValues hcount nofun,
    Attempt.error?_eq_some (by decide +kernel)⟩

end Grammar

end Packrat

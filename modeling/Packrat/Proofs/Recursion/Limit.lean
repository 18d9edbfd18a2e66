/-
The depth limit. It is read where no nesting is left and nowhere else, so operators do the same under every limit.
A parse that never gets as deep as its limit allows has not met it: it goes the same way under any greater one,
whatever failed, was absorbed by a choice or a repetition, or was remembered on the way.
-/
import Packrat.Proofs.Recursion.Soundness
import Packrat.Proofs.Session.Strictness

namespace Packrat

/-- The job with another depth limit. -/
def Job.limited (job : Job) (limit : Nat) : Job := { job with options := { job.options with depthLimit := limit } }

/-! ## Operators do not read the limit -/

section

variable {job : Job} {limit : Nat} {apply : Applier}

theorem Run.drive_limited : ∀ {fuel : Nat} {run : Run}, run.drive (job.limited limit) apply fuel = run.drive job apply fuel
  | 0, _ => rfl
  | fuel + 1, run => by
    unfold Run.drive
    simp only [@Run.drive_limited fuel]
    rfl

theorem Run.extend_limited {run : Run} : ∀ {fuel : Nat} {cursor : Position} {tree : Tree},
    run.extend (job.limited limit) apply fuel cursor tree = run.extend job apply fuel cursor tree
  | 0, _, _ => rfl
  | fuel + 1, cursor, tree => by
    unfold Run.extend Run.tail
    simp only [@Run.extend_limited run fuel, Run.drive_limited]
    rfl

theorem Run.finish_limited {run : Run} : run.finish (job.limited limit) apply = run.finish job apply := by
  unfold Run.finish Run.complete
  simp only [Run.drive_limited, Run.extend_limited]
  rfl

theorem resume_limited : ∀ {suspension : Suspension} {attempt : Attempt},
    Suspension.resume (job.limited limit) apply suspension attempt = Suspension.resume job apply suspension attempt
  | [], _ => rfl
  | work :: others, attempt => by
    have hwork : work.resume (job.limited limit) apply attempt = work.resume job apply attempt := by
      cases work with
      | sequence run =>
        show run.resume _ _ _ = run.resume _ _ _
        unfold Run.resume
        simp only [Run.finish_limited]
        rfl
      | memory | wrapping => rfl
    unfold Suspension.resume
    simp only [hwork, @resume_limited others]

theorem tryChoice_limited {setting : Setting} : ∀ {alternatives : List Expr} {tried : Tried},
    tryChoice (job.limited limit) apply setting alternatives tried = tryChoice job apply setting alternatives tried
  | [], _ => rfl
  | alternative :: others, tried => by
    unfold tryChoice plantSeed
    simp only [@tryChoice_limited setting others, resume_limited]
    rfl

theorem Rounds.drive_limited {body : Expr} {bounds : Bounds} {setting : Setting} : ∀ {fuel : Nat} {rounds : Rounds},
    rounds.drive (job.limited limit) apply body bounds setting fuel = rounds.drive job apply body bounds setting fuel
  | 0, _ => rfl
  | fuel + 1, rounds => by
    unfold Rounds.drive
    simp only [@Rounds.drive_limited body bounds setting fuel]
    rfl

theorem evaluate_limited : evaluate (job.limited limit) apply = evaluate job apply := by
  funext e setting
  cases e with
  | sequence parts | merge parts => exact Run.finish_limited
  | choice alternatives => exact tryChoice_limited
  | repetition body bounds fallback =>
    show tryRepetition _ _ _ _ _ _ = tryRepetition _ _ _ _ _ _
    unfold tryRepetition
    simp only [Rounds.drive_limited]
    rfl
  | _ => rfl

end

/-! ## Steps that stay clear of the limit -/

/-- The session is at the depth, and never was deeper than the limit. -/
structure Session.Clear (job : Job) (level : Nat) (s : Session) : Prop where
  depth : s.depth = level
  deepest : s.counts.deepest ≤ job.options.depthLimit
  counted : job.options.counting = true → level ≤ s.counts.deepest

/-- From sessions at the depth, the first step gets no deeper than the limit. Where it does not even get that deep, and
that is told from the counts, the second step does the same. -/
def Eval.Tracks {α : Type} (job : Job) (depth : Nat) (x y : Eval α) : Prop :=
  ∀ s : Session, s.Clear job depth → (x.on s).2.Clear job depth ∧ s.counts.deepest ≤ (x.on s).2.counts.deepest ∧
    (job.options.counting = true → (x.on s).2.counts.deepest < job.options.depthLimit → y.on s = x.on s)

namespace Eval.Tracks

variable {α β : Type} {job : Job} {depth : Nat} {apply apply' : Applier} {e : Expr} {setting : Setting}

theorem level {x : Eval α} (h : x.Level) : Tracks job depth x x := by
  intro s hs
  obtain ⟨hdepth, hdeepest⟩ := h s
  refine ⟨⟨hdepth.trans hs.depth, ?_, fun hc => ?_⟩, ?_, fun _ _ => rfl⟩
  · rw [hdeepest]
    exact hs.deepest
  · rw [hdeepest]
    exact hs.counted hc
  · rw [hdeepest]

theorem bind {x y : Eval α} {f g : α → Eval β} (hx : Tracks job depth x y) (hf : ∀ a, Tracks job depth (f a) (g a)) :
    Tracks job depth (x >>= f) (y >>= g) := by
  intro s hs
  obtain ⟨ht, hle, heq⟩ := hx s hs
  obtain ⟨hu, hle', heq'⟩ := hf (x.on s).1 _ ht
  rw [on_bind, on_bind]
  refine ⟨hu, Nat.le_trans hle hle', fun hc hd => ?_⟩
  rw [heq hc (Nat.lt_of_le_of_lt hle' hd)]
  exact heq' hc hd

/-- Where the expressions are tracked that a flat procedure tries, so is the procedure. -/
theorem of_flat [Breakable α] {x : Procedure α} (hx : x.Flat) (h : ∀ e setting, Tracks job depth (apply e setting) (apply' e setting)) :
    Tracks job depth (x apply) (x apply') := by
  induction hx with
  | level hx => exact level hx
  | attempt e setting => exact h e setting
  | behind hk _ ih => exact bind (level hk) ih
  | bind _ _ _ ihx ihf => exact bind ihx ihf

/-- Nested work starts one level deeper, which the limit has to allow. -/
theorem nested {rule : Option String} {location : Location} {work work' : Eval Attempt} (hd : depth + 1 ≤ job.options.depthLimit)
    (h : Tracks job (depth + 1) work work') :
    Tracks job depth (Eval.nested job rule location work) (Eval.nested job rule location work') := by
  intro s hs
  have hdeeper : (s.deeper job rule location).Clear job (depth + 1) ∧
      s.counts.deepest ≤ (s.deeper job rule location).counts.deepest := by
    have hdepth := hs.depth
    have hdeepest := hs.deepest
    unfold Session.deeper
    split
    · refine ⟨⟨congrArg (· + 1) hdepth, ?_, fun _ => ?_⟩, Nat.le_max_left _ _⟩
      · exact Nat.max_le.2 ⟨hdeepest, hdepth ▸ hd⟩
      · exact hdepth ▸ Nat.le_max_right _ _
    · next hc => exact ⟨⟨congrArg (· + 1) hdepth, hdeepest, fun h => absurd h hc⟩, Nat.le_refl _⟩
  obtain ⟨ht, hle, heq⟩ := h _ hdeeper.1
  rw [on_nested, on_nested]
  refine ⟨⟨?_, ht.deepest, fun hc => ?_⟩, Nat.le_trans hdeeper.2 hle, fun hc hlt => ?_⟩
  · show (work.on _).2.depth - 1 = depth
    rw [ht.depth]
    rfl
  · exact Nat.le_of_succ_le (ht.counted hc)
  · rw [heq hc hlt]

theorem remembering {work work' : Applier} (hd : depth + 1 ≤ job.options.depthLimit)
    (h : Tracks job (depth + 1) (work e setting) (work' e setting)) :
    Tracks job depth (Packrat.remembering job work e setting) (Packrat.remembering job work' e setting) := by
  refine bind (level .lookUp) fun found => ?_
  cases found with
  | some v => exact level .pure
  | none =>
    refine bind (level .get) fun s => ?_
    split
    · exact level (.bind .reportReentry fun _ => .pure)
    · exact bind (nested hd h) fun a => level .remember

/-- Expressions are tracked with as many levels of nesting more as the limit is raised by. -/
theorem applyWithin (more : Nat) : ∀ (levels depth : Nat), depth + levels = job.options.depthLimit → ∀ e setting,
    Tracks job depth (Packrat.applyWithin job levels e setting)
      (Packrat.applyWithin (job.limited (job.options.depthLimit + more)) (levels + more) e setting)
  | 0, depth, hl, _, _ => fun s hs => by
    -- a counted session at this depth has met the limit already
    refine ⟨hs, Nat.le_refl _, fun hc hlt => ?_⟩
    have hreached := hs.counted hc
    have hnot : s.counts.deepest < job.options.depthLimit := hlt
    omega
  | levels + 1, depth, hl, e, setting => by
    have hparts := applyWithin more levels (depth + 1) (by omega)
    rw [show levels + 1 + more = levels + more + 1 by omega]
    refine remembering (by omega) ?_
    rw [evaluate_limited]
    exact of_flat (Procedure.Flat.evaluate e setting) hparts

end Eval.Tracks

/-! ## Whole parses -/

namespace Job

variable (job : Job) (root : Expr)

/-- No parse nests deeper than its limit allows. -/
theorem deepest_le : (job.run root).counts.deepest ≤ job.options.depthLimit :=
  (Eval.Tracks.applyWithin 0 job.options.depthLimit 0 (Nat.zero_add _) root .start .start
    ⟨rfl, Nat.zero_le _, fun _ => Nat.zero_le _⟩).1.deepest

/-- A parse that did not get as deep as its limit allows is the same under a greater one. -/
theorem run_limited {limit : Nat} (hc : job.options.counting = true) (hd : (job.run root).counts.deepest < job.options.depthLimit)
    (hl : job.options.depthLimit ≤ limit) : (job.limited limit).run root = job.run root := by
  obtain ⟨more, rfl⟩ := Nat.exists_eq_add_of_le hl
  have hsame : (applyWithin (job.limited (job.options.depthLimit + more)) (job.options.depthLimit + more) root .start).on .start =
      (applyWithin job job.options.depthLimit root .start).on .start :=
    (Eval.Tracks.applyWithin more job.options.depthLimit 0 (Nat.zero_add _) root .start .start
      ⟨rfl, Nat.zero_le _, fun _ => Nat.zero_le _⟩).2.2 hc hd
  unfold run
  rw [show (apply (job.limited (job.options.depthLimit + more)) root .start).run .start = (apply job root .start).run .start
    from hsame]
  rfl

end Job

/-- No parse nests deeper than its limit allows. If a parse with counts did not get that deep, then under every greater
limit it has the same result, with the same counts, events and journal. -/
theorem Grammar.parse_limited (g : Grammar) (options : Options) (externals : Externals) (input : List Char) :
    (g.parse options externals input).counts.deepest ≤ options.depthLimit ∧
      (options.counting = true → (g.parse options externals input).counts.deepest < options.depthLimit →
        ∀ depthLimit, options.depthLimit ≤ depthLimit →
          g.parse { options with depthLimit } externals input = g.parse options externals input) := by
  let job := Job.new g (.rule g.start) options externals input
  exact ⟨job.deepest_le (.rule g.start), fun hc hd depthLimit hl => job.run_limited (.rule g.start) hc hd hl⟩

/-- Sums are read by coming back to a sum where it begins; the rest of a longer one is read by resuming it. -/
theorem Grammar.parse_limited_sums : (ofSums.parse ⟨true, 8, true, true⟩ .nothing ['1', '+', '1']).counts.deepest < 8 ∧
    ofSums.parse ⟨true, 1024, true, true⟩ .nothing ['1', '+', '1'] =
      ofSums.parse ⟨true, 8, true, true⟩ .nothing ['1', '+', '1'] := by
  have hdeepest : (ofSums.parse ⟨true, 8, true, true⟩ .nothing ['1', '+', '1']).counts.deepest < 8 := by
    decide +kernel
  have hlimited := ofSums.parse_limited ⟨true, 8, true, true⟩ .nothing ['1', '+', '1']
  exact ⟨hdeepest, hlimited.2 rfl hdeepest 1024 (by decide)⟩

end Packrat

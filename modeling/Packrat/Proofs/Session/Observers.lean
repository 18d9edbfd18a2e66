/-
Counting, reporting events and keeping a journal only observe a parse, and so does keeping track of
the depth. In sessions that agree on what is remembered and on the rule entered last, jobs that
differ in their observers alone come to the same results, and the sessions still agree afterwards.
-/
import Packrat.Parse.Answer
import Packrat.Proofs.Session.Logic

namespace Packrat

/-- Sessions that agree on what is remembered and on the rule entered last. -/
structure Session.Alike (s t : Session) : Prop where
  memory : s.memory = t.memory
  entered : s.entered = t.entered

namespace Session.Alike

variable {s t u : Session}

theorem refl (s : Session) : s.Alike s := ⟨rfl, rfl⟩

theorem symm (h : s.Alike t) : t.Alike s := ⟨h.memory.symm, h.entered.symm⟩

theorem trans (h : s.Alike t) (k : t.Alike u) : s.Alike u := ⟨h.memory.trans k.memory, h.entered.trans k.entered⟩

end Session.Alike

/-- Steps with the same result in sessions that are alike, which they leave alike. -/
def Eval.Agree {α : Type} (x y : Eval α) : Prop :=
  ∀ s t, s.Alike t → (x.on s).1 = (y.on t).1 ∧ (x.on s).2.Alike (y.on t).2

/-- The job with other observers. -/
def Job.observed (job : Job) (counting tracing : Bool) : Job :=
  { job with options := { job.options with counting, tracing } }

namespace Eval.Agree

variable {α β : Type}

/-! ## Plumbing -/

theorem pure {a : α} : Agree (Pure.pure a) (Pure.pure a) := fun _ _ h => ⟨rfl, h⟩

theorem bind {x y : Eval α} {f g : α → Eval β} (hx : Agree x y) (hf : ∀ a, Agree (f a) (g a)) :
    Agree (x >>= f) (y >>= g) := by
  intro s t h
  obtain ⟨ha, hs⟩ := hx s t h
  rw [Eval.on_bind, Eval.on_bind, ← ha]
  exact hf _ _ _ hs

theorem bind_get {f g : Session → Eval α} (hf : ∀ s t, s.Alike t → Agree (f s) (g t)) :
    Agree (get >>= f) (get >>= g) := fun s t h => hf s t h s t h

theorem modify {f g : Session → Session} (hf : ∀ s t, s.Alike t → (f s).Alike (g t)) :
    Agree (modify f : Eval Unit) (modify g : Eval Unit) := fun s t h => ⟨rfl, hf s t h⟩

variable {job job' : Job} {counting tracing : Bool}

theorem note {entry : Note} : Agree (Eval.note entry) (Eval.note entry) :=
  modify fun _ _ h => ⟨h.memory, h.entered⟩

theorem count {update update' : Counts → Counts} : Agree (Eval.count job update) (Eval.count job' update') := by
  refine modify fun s t h => ?_
  split <;> split <;> exact ⟨h.memory, h.entered⟩

theorem emit {event : Event} : Agree (Eval.emit job event) (Eval.emit job' event) := by
  refine modify fun s t h => ?_
  split <;> split <;> exact ⟨h.memory, h.entered⟩

/-! ## Memory, depth and mark -/

theorem lookUp {q : Question} : Agree (Eval.lookUp job q) (Eval.lookUp (job.observed counting tracing) q) := by
  unfold Eval.lookUp
  show Agree _ (if job.options.remember then _ else _)
  split
  · refine bind_get fun s t h => ?_
    rw [h.memory]
    split
    · exact bind count fun _ => bind emit fun _ => pure
    · exact bind count fun _ => pure
  · exact pure

theorem remember {q : Question} {attempt : Attempt} :
    Agree (Eval.remember job q attempt) (Eval.remember (job.observed counting tracing) q attempt) := by
  unfold Eval.remember
  show Agree _ (if job.options.remember then _ else _)
  split
  · split
    · exact bind (modify fun s t h => ⟨by rw [h.memory], h.entered⟩) fun _ => pure
    all_goals exact pure
  · exact pure

theorem reportReentry {rule : String} {location : Location} :
    Agree (Eval.reportReentry job rule location) (Eval.reportReentry job' rule location) :=
  bind note fun _ => bind count fun _ => emit

theorem nested {rule : Option String} {location : Location} {work work' : Eval Attempt}
    (h : Agree work work') : Agree (Eval.nested job rule location work) (Eval.nested job' rule location work') := by
  refine bind_get fun s t hs => bind_get fun s' t' hs' => ?_
  rw [hs'.entered]
  refine bind (modify fun s t h => ⟨h.memory, by rw [h.entered]⟩) fun _ => ?_
  refine bind count fun _ => bind h fun _ => ?_
  exact bind (modify fun s t h => ⟨h.memory, by rw [h.entered]⟩) fun _ => pure

/-! ## Parts of sequences and repetitions -/

variable {apply apply' : Applier}

theorem skipBetween (h : ∀ e setting, Agree (apply e setting) (apply' e setting)) {setting : Setting}
    {acc : Accumulator} : Agree (Packrat.skipBetween job apply setting acc)
      (Packrat.skipBetween (job.observed counting tracing) apply' setting acc) := by
  have hs : (job.observed counting tracing).skipper? = job.skipper? := rfl
  unfold Packrat.skipBetween
  rw [hs]
  split
  · exact pure
  · refine bind (h _ _) fun a => ?_
    split <;> exact pure

theorem absorb (h : ∀ e setting, Agree (apply e setting) (apply' e setting)) {run : Run} {attempt : Attempt} :
    Agree (run.absorb job apply attempt) (run.absorb (job.observed counting tracing) apply' attempt) := by
  unfold Run.absorb
  split
  case h_4 =>
    refine bind (skipBetween h) fun r => ?_
    split <;> exact pure
  all_goals exact pure

theorem drive (h : ∀ e setting, Agree (apply e setting) (apply' e setting)) : ∀ {fuel : Nat} {run : Run},
    Agree (run.drive job apply fuel) (run.drive (job.observed counting tracing) apply' fuel)
  | 0, _ => pure
  | fuel + 1, run => by
    unfold Run.drive
    split
    · exact pure
    · refine bind_get fun s t hs => ?_
      have : s.reenters = t.reenters := by
        funext e location
        unfold Session.reenters
        rw [hs.entered]
      rw [this]
      split
      · exact bind reportReentry fun _ => pure
      · refine bind (h _ _) fun a => bind (absorb h) fun r => ?_
        split
        · exact drive h
        · exact pure

theorem tail (h : ∀ e setting, Agree (apply e setting) (apply' e setting)) {run : Run} {cursor : Position} :
    Agree (run.tail job apply cursor) (run.tail (job.observed counting tracing) apply' cursor) := by
  refine bind (drive h) fun r => ?_
  split <;> exact pure

theorem extend (h : ∀ e setting, Agree (apply e setting) (apply' e setting)) {run : Run} :
    ∀ {fuel : Nat} {cursor : Position} {tree : Tree},
      Agree (run.extend job apply fuel cursor tree) (run.extend (job.observed counting tracing) apply' fuel cursor tree)
  | 0, _, _ => pure
  | fuel + 1, cursor, tree => by
    unfold Run.extend
    show Agree (if job.input.length ≤ cursor.offset then _ else _) (if job.input.length ≤ cursor.offset then _ else _)
    split
    · exact pure
    · refine bind (tail h) fun a => ?_
      split
      · show Agree (if _ then _ else _) (if _ then _ else _)
        split
        · exact pure
        · exact bind count fun _ => bind note fun _ => extend h
      all_goals exact pure

theorem finish (h : ∀ e setting, Agree (apply e setting) (apply' e setting)) {run : Run} :
    Agree (run.finish job apply) (run.finish (job.observed counting tracing) apply') := by
  refine bind (drive h) fun r => ?_
  split
  · unfold Run.complete
    split
    · exact extend h
    · exact pure
  · exact pure

theorem rounds (h : ∀ e setting, Agree (apply e setting) (apply' e setting)) {body : Expr} {bounds : Bounds}
    {setting : Setting} : ∀ {fuel : Nat} {rounds : Rounds},
      Agree (rounds.drive job apply body bounds setting fuel)
        (rounds.drive (job.observed counting tracing) apply' body bounds setting fuel)
  | 0, _ => pure
  | fuel + 1, r => by
    unfold Rounds.drive
    show Agree (if _ then _ else _) (if _ then _ else _)
    split
    · exact pure
    · refine bind (h _ _) fun a => ?_
      split
      · show Agree (if _ then _ else _) (if _ then _ else _)
        split
        · exact pure
        · exact rounds h
      · show Agree (if _ then _ else _) (if _ then _ else _)
        split
        · exact pure
        · exact rounds h
      case h_5 =>
        refine bind (skipBetween h) fun r => ?_
        split
        · exact rounds h
        all_goals exact pure
      all_goals exact pure

theorem tryRepetition (h : ∀ e setting, Agree (apply e setting) (apply' e setting)) {body : Expr} {bounds : Bounds}
    {fallback : Option Tree} {setting : Setting} :
    Agree (Packrat.tryRepetition job apply body bounds fallback setting)
      (Packrat.tryRepetition (job.observed counting tracing) apply' body bounds fallback setting) := by
  refine bind (rounds h) fun r => ?_
  split <;> exact pure

/-! ## Suspensions and choices -/

theorem resumeRun (h : ∀ e setting, Agree (apply e setting) (apply' e setting)) {run : Run} {attempt : Attempt} :
    Agree (run.resume job apply attempt) (run.resume (job.observed counting tracing) apply' attempt) := by
  refine bind (absorb h) fun r => ?_
  split
  · exact finish h
  · exact pure

theorem resume (h : ∀ e setting, Agree (apply e setting) (apply' e setting)) :
    ∀ {suspension : Suspension} {attempt : Attempt}, Agree (Suspension.resume job apply suspension attempt)
      (Suspension.resume (job.observed counting tracing) apply' suspension attempt)
  | [], _ => pure
  | work :: others, attempt => by
    unfold Suspension.resume
    refine bind ?_ fun a => ?_
    · cases work with
      | sequence run => exact resumeRun h
      | memory q => exact remember
      | wrapping rule => exact pure
    · split
      · exact pure
      · exact resume h

theorem plantSeed (h : ∀ e setting, Agree (apply e setting) (apply' e setting)) {suspension : Suspension}
    {seed : Tree} : Agree (Packrat.plantSeed job apply suspension seed)
      (Packrat.plantSeed (job.observed counting tracing) apply' suspension seed) := by
  refine bind note fun _ => bind emit fun _ => bind count fun _ => bind (resume h) fun a => ?_
  split <;> exact pure

theorem tryChoice (h : ∀ e setting, Agree (apply e setting) (apply' e setting)) {setting : Setting} :
    ∀ {alternatives : List Expr} {tried : Tried}, Agree (Packrat.tryChoice job apply setting alternatives tried)
      (Packrat.tryChoice (job.observed counting tracing) apply' setting alternatives tried)
  | [], _ => pure
  | alternative :: others, tried => by
    unfold Packrat.tryChoice
    refine bind (h _ _) fun a => ?_
    split
    · split
      · exact plantSeed h
      · exact pure
    · exact bind emit fun _ => bind count fun _ => tryChoice h
    · exact tryChoice h
    · exact pure

/-! ## Expressions -/

theorem evaluate (h : ∀ e setting, Agree (apply e setting) (apply' e setting)) (e : Expr) (setting : Setting) :
    Agree (Packrat.evaluate job apply e setting)
      (Packrat.evaluate (job.observed counting tracing) apply' e setting) := by
  cases e with
  | literal | pattern | external => exact pure
  | sequence parts => exact finish h
  | merge parts => exact finish h
  | choice alternatives => exact tryChoice h
  | repetition body bounds fallback => exact tryRepetition h
  | ahead body => exact bind (h _ _) fun _ => pure
  | notAhead body => exact bind (h _ _) fun _ => pure
  | omission body => exact bind (h _ _) fun _ => pure
  | rule name =>
    show Agree (tryRule job apply name setting) (tryRule (job.observed counting tracing) apply' name setting)
    unfold tryRule
    have hg : (job.observed counting tracing).grammar = job.grammar := rfl
    rw [hg]
    split
    · exact pure
    · exact bind emit fun _ => bind count fun _ => bind (h _ _) fun _ => bind emit fun _ => pure

theorem applyWithin : ∀ (levels : Nat) (e : Expr) (setting : Setting),
    Agree (Packrat.applyWithin job levels e setting)
      (Packrat.applyWithin (job.observed counting tracing) levels e setting)
  | 0, _, _ => pure
  | levels + 1, e, setting => by
    refine bind lookUp fun found => ?_
    split
    · exact pure
    · refine bind_get fun s t hs => ?_
      have : s.reenters = t.reenters := by
        funext e location
        unfold Session.reenters
        rw [hs.entered]
      rw [this]
      split
      · exact bind reportReentry fun _ => pure
      · exact bind (nested (evaluate (applyWithin levels) e setting)) fun _ => remember

end Eval.Agree

/-- Observers do not change what comes of a parse. -/
theorem Grammar.parse_observed (g : Grammar) (options : Options) (externals : Externals)
    (input : List Char) (counting tracing : Bool) :
    (g.parse { options with counting, tracing } externals input).result =
      (g.parse options externals input).result := by
  let job := Job.new g (.rule g.start) options externals input
  have h : Eval.Agree (apply job (.rule g.start) .start) (apply (job.observed counting tracing) (.rule g.start) .start) :=
    Eval.Agree.applyWithin _ _ _
  exact congrArg (Job.resultOf (.rule g.start)) (h .start .start (.refl _)).1.symm

end Packrat

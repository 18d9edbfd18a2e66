/-
What a parse does to its session, whatever its steps come to. A passage is a relation between sessions
that holds from before to after every piece of bookkeeping, and that nested work and rules have if what is
done inside them has it. Then every step has it, operator by operator and by induction on the levels of
nesting. Loops and resumed work need nothing of their own: they are bookkeeping between expressions that
are tried.
-/
import Packrat.Proofs.Session.Logic

namespace Packrat

/-- From whatever session the step is taken in, it leads to a related one. -/
def Eval.Leads {α : Type} (R : Session → Session → Prop) (x : Eval α) : Prop := ∀ s, R s (x.on s).2

/-- A relation that every piece of bookkeeping of a parse has, and nested work and rules with what is done
inside them. -/
structure Passage (job : Job) (R : Session → Session → Prop) : Prop where
  refl : ∀ s, R s s
  trans : ∀ {s t u}, R s t → R t u → R s u
  answered {location : Location} : Eval.Leads R do
    Eval.count job fun c => { c with hits := c.hits + 1 }
    Eval.emit job (.answered location)
  missed : Eval.Leads R (Eval.count job fun c => { c with misses := c.misses + 1 })
  recorded {q : Question} {verdict : Verdict} :
    Eval.Leads R (modify fun s => { s with memory := s.memory.insert q verdict } : Eval Unit)
  reentered {rule : String} {location : Location} : Eval.Leads R (Eval.reportReentry job rule location)
  failed {stop next : Location} : Eval.Leads R do
    Eval.emit job (.backtrack stop next)
    Eval.count job fun c => { c with backtracks := c.backtracks + 1 }
  resumed {waiting : Nat} {location : Location} : Eval.Leads R do
    Eval.note (.resuming waiting location)
    Eval.emit job (.resume location)
    Eval.count job fun c => { c with resumptions := c.resumptions + 1 }
  grown {location : Location} : Eval.Leads R do
    Eval.count job fun c => { c with growths := c.growths + 1 }
    Eval.note (.grown location)
  nested {rule : Option String} {location : Location} {work : Eval Attempt} : Eval.Leads R work →
    Eval.Leads R (Eval.nested job rule location work)
  entered {name : String} {location : Location} {work : Eval Attempt} : Eval.Leads R work → Eval.Leads R do
    Eval.emit job (.enter name location)
    Eval.count job fun c => { c with rules := c.rules + 1 }
    let attempt := wrapAttempt job name (← work)
    Eval.emit job (.leave name attempt.holds)
    return attempt

namespace Passage

variable {job : Job} {R : Session → Session → Prop} (P : Passage job R) {α β : Type}
include P

/-! ## Plumbing -/

theorem pure {a : α} : Eval.Leads R (Pure.pure a) := P.refl

theorem bind {x : Eval α} {f : α → Eval β} (hx : Eval.Leads R x) (hf : ∀ a, Eval.Leads R (f a)) :
    Eval.Leads R (x >>= f) := fun s => P.trans (hx s) (hf _ _)

/-- What follows two steps that lead on together. -/
theorem behind {x y : Eval Unit} {z : Eval α} (hxy : Eval.Leads R (x >>= fun _ => y)) (hz : Eval.Leads R z) :
    Eval.Leads R (x >>= fun _ => y >>= fun _ => z) := fun s => P.trans (hxy s) (hz _)

/-- What follows three of them. -/
theorem behindThree {x y z : Eval Unit} {w : Eval α} (hxyz : Eval.Leads R (x >>= fun _ => y >>= fun _ => z))
    (hw : Eval.Leads R w) : Eval.Leads R (x >>= fun _ => y >>= fun _ => z >>= fun _ => w) :=
  fun s => P.trans (hxyz s) (hw _)

omit P in
theorem bind_get {f : Session → Eval α} (hf : ∀ s, Eval.Leads R (f s)) : Eval.Leads R (get >>= f) := fun s => hf s s

omit P in
theorem ite {c : Prop} [Decidable c] {x y : Eval α} (hx : Eval.Leads R x) (hy : Eval.Leads R y) :
    Eval.Leads R (if c then x else y) := by
  split
  · exact hx
  · exact hy

/-! ## Memory -/

theorem lookUp {q : Question} : Eval.Leads R (Eval.lookUp job q) := by
  unfold Eval.lookUp
  refine ite (bind_get fun s => ?_) P.pure
  split
  · exact P.behind P.answered P.pure
  · exact P.bind P.missed fun _ => P.pure

theorem remember {q : Question} {attempt : Attempt} : Eval.Leads R (Eval.remember job q attempt) := by
  unfold Eval.remember
  refine ite ?_ P.pure
  split
  · exact P.bind P.recorded fun _ => P.pure
  all_goals exact P.pure

theorem remembering {work : Applier} {e : Expr} {setting : Setting} (h : Eval.Leads R (work e setting)) :
    Eval.Leads R (Packrat.remembering job work e setting) := by
  refine P.bind P.lookUp fun found => ?_
  split
  · exact P.pure
  · exact bind_get fun s => ite (P.bind P.reentered fun _ => P.pure) (P.bind (P.nested h) fun _ => P.remember)

/-! ## Sequences -/

variable {apply : Applier} (h : ∀ e setting, Eval.Leads R (apply e setting))
include h

theorem skipBetween {setting : Setting} {acc : Accumulator} : Eval.Leads R (Packrat.skipBetween job apply setting acc) := by
  unfold Packrat.skipBetween
  split
  · exact P.pure
  · refine P.bind (h _ _) fun a => ?_
    split <;> exact P.pure

theorem absorb {run : Run} {attempt : Attempt} : Eval.Leads R (run.absorb job apply attempt) := by
  unfold Run.absorb
  split
  case h_4 =>
    refine P.bind (P.skipBetween h) fun r => ?_
    split <;> exact P.pure
  all_goals exact P.pure

theorem drive : ∀ {fuel : Nat} {run : Run}, Eval.Leads R (run.drive job apply fuel)
  | 0, _ => P.pure
  | fuel + 1, run => by
    unfold Run.drive
    split
    · exact P.pure
    · refine bind_get fun s => ite (P.bind P.reentered fun _ => P.pure) ?_
      refine P.bind (h _ _) fun a => P.bind (P.absorb h) fun r => ?_
      split
      · exact drive
      · exact P.pure

theorem tail {run : Run} {cursor : Position} : Eval.Leads R (run.tail job apply cursor) := by
  refine P.bind (P.drive h) fun r => ?_
  split <;> exact P.pure

theorem extend {run : Run} : ∀ {fuel : Nat} {cursor : Position} {tree : Tree},
    Eval.Leads R (run.extend job apply fuel cursor tree)
  | 0, _, _ => P.pure
  | fuel + 1, cursor, tree => by
    unfold Run.extend
    refine ite P.pure (P.bind (P.tail h) fun a => ?_)
    split
    · exact ite P.pure (P.behind P.grown extend)
    all_goals exact P.pure

theorem complete {run : Run} : Eval.Leads R (run.complete job apply) := ite (P.extend h) P.pure

theorem finish {run : Run} : Eval.Leads R (run.finish job apply) := by
  refine P.bind (P.drive h) fun r => ?_
  split
  · exact P.complete h
  · exact P.pure

/-! ## Suspended work -/

theorem resume : ∀ {suspension : Suspension} {attempt : Attempt}, Eval.Leads R (Suspension.resume job apply suspension attempt)
  | [], _ => P.pure
  | work :: others, attempt => by
    unfold Suspension.resume
    refine P.bind ?_ fun a => ?_
    · cases work with
      | sequence run =>
        refine P.bind (P.absorb h) fun r => ?_
        split
        · exact P.finish h
        · exact P.pure
      | memory q => exact P.remember
      | wrapping rule => exact P.pure
    · split
      · exact P.pure
      · exact resume

theorem plantSeed {suspension : Suspension} {seed : Tree} : Eval.Leads R (Packrat.plantSeed job apply suspension seed) := by
  unfold Packrat.plantSeed
  refine P.behindThree P.resumed (P.bind (P.resume h) fun a => ?_)
  split <;> exact P.pure

/-! ## Expressions -/

theorem tryChoice {setting : Setting} : ∀ {alternatives : List Expr} {tried : Tried},
    Eval.Leads R (Packrat.tryChoice job apply setting alternatives tried)
  | [], _ => P.pure
  | e :: others, tried => by
    unfold Packrat.tryChoice
    refine P.bind (h _ _) fun a => ?_
    split
    · split
      · exact P.plantSeed h
      · exact P.pure
    · exact P.behind P.failed tryChoice
    · exact tryChoice
    · exact P.pure

theorem rounds {body : Expr} {bounds : Bounds} {setting : Setting} : ∀ {fuel : Nat} {rounds : Rounds},
    Eval.Leads R (rounds.drive job apply body bounds setting fuel)
  | 0, _ => P.pure
  | fuel + 1, r => by
    unfold Rounds.drive
    refine ite P.pure (P.bind (h _ _) fun a => ?_)
    split
    · exact ite P.pure rounds
    · exact ite P.pure rounds
    case h_5 =>
      refine P.bind (P.skipBetween h) fun r => ?_
      split
      · exact rounds
      all_goals exact P.pure
    all_goals exact P.pure

theorem evaluate (e : Expr) (setting : Setting) : Eval.Leads R (Packrat.evaluate job apply e setting) := by
  cases e with
  | literal | pattern | external => exact P.pure
  | sequence parts | merge parts => exact P.finish h
  | choice alternatives => exact P.tryChoice h
  | repetition body bounds fallback =>
    refine P.bind (P.rounds h) fun r => ?_
    split <;> exact P.pure
  | ahead body | notAhead body | omission body => exact P.bind (h _ _) fun _ => P.pure
  | rule name =>
    show Eval.Leads R (tryRule job apply name setting)
    unfold tryRule
    split
    · exact P.pure
    · exact P.entered (h _ _)

omit h

theorem applyWithin : ∀ (levels : Nat) (e : Expr) (setting : Setting), Eval.Leads R (Packrat.applyWithin job levels e setting)
  | 0, _, _ => P.pure
  | levels + 1, e, setting => P.remembering (P.evaluate (applyWithin levels) e setting)

end Passage

end Packrat

/-
Single steps with corresponding things. What corresponds can be collected, looked up in memory and
remembered, and a step that goes on from such things comes to such things again. Counting, reporting events and
keeping a journal do not matter.
-/
import Packrat.Proofs.Correspondence.Laws
import Packrat.Proofs.Grammar.Parts

namespace Packrat.Correspondence

variable {K : Correspondence} {job job' : Job}

/-! ## Plumbing -/

namespace Steps

variable {α α' β β' : Type} {R : α → α' → Prop} {S : β → β' → Prop} {x y : Eval α} {x' y' : Eval α'}

theorem pure {a : α} {a' : α'} (h : R a a') : K.Steps R (Pure.pure a) (Pure.pure a') := fun _ _ hs => ⟨h, hs⟩

theorem bind {f : α → Eval β} {f' : α' → Eval β'} (hx : K.Steps R x x')
    (hf : ∀ a a', R a a' → K.Steps S (f a) (f' a')) : K.Steps S (x >>= f) (x' >>= f') := by
  intro s s' hs
  obtain ⟨ha, ht⟩ := hx s s' hs
  rw [Eval.on_bind, Eval.on_bind]
  exact hf _ _ ha _ _ ht

theorem bind_get {f : Session → Eval α} {f' : Session → Eval α'} (hf : ∀ s s', K.Sessions s s' → K.Steps R (f s) (f' s')) :
    K.Steps R (get >>= f) (get >>= f') := fun s s' hs => hf s s' hs s s' hs

theorem modify {f f' : Session → Session} (hf : ∀ s s', K.Sessions s s' → K.Sessions (f s) (f' s')) :
    K.Steps (fun _ _ => True) (modify f : Eval Unit) (modify f' : Eval Unit) := fun s s' hs => ⟨trivial, hf s s' hs⟩

theorem ite {p p' : Prop} [Decidable p] [Decidable p'] (hp : p ↔ p') (hx : K.Steps R x x') (hy : K.Steps R y y') :
    K.Steps R (if p then x else y) (if p' then x' else y') := by
  by_cases h : p
  · rw [if_pos h, if_pos (hp.1 h)]
    exact hx
  · rw [if_neg h, if_neg fun h' => h (hp.2 h')]
    exact hy

theorem note {entry entry' : Note} : K.Steps (fun _ _ => True) (Eval.note entry) (Eval.note entry') :=
  modify fun _ _ hs => ⟨hs.memory, hs.entered⟩

theorem count {update update' : Counts → Counts} :
    K.Steps (fun _ _ => True) (Eval.count job update) (Eval.count job' update') := by
  refine modify fun s s' hs => ?_
  split <;> split <;> exact ⟨hs.memory, hs.entered⟩

theorem emit {event event' : Event} : K.Steps (fun _ _ => True) (Eval.emit job event) (Eval.emit job' event') := by
  refine modify fun s s' hs => ?_
  split <;> split <;> exact ⟨hs.memory, hs.entered⟩

theorem reportReentry {rule rule' : String} {l l' : Location} :
    K.Steps (fun _ _ => True) (Eval.reportReentry job rule l) (Eval.reportReentry job' rule' l') :=
  bind note fun _ _ _ => bind count fun _ _ _ => emit

end Steps

theorem Collections.new {p p' : Position} (h : K.position p p') : K.Collections (.new p) (.new p') := ⟨h, h, h, rfl, .nil⟩

theorem option_refl {α : Type} {R : α → α → Prop} (h : ∀ a, R a a) : ∀ o : Option α, Option.Rel R o o
  | none => .none
  | some a => .some (h a)

/-- An expression has its own form, if its parts and its fallback correspond to themselves. -/
theorem Exprs.refl {e : Expr} (hparts : ∀ part ∈ e.parts, K.expr part part)
    (hfallback : ∀ t, e.fallback? = some t → K.Fallbacks t t) : K.Exprs e e := by
  cases e with
  | literal text => exact .literal text
  | pattern pattern => exact .pattern pattern
  | rule name => exact .rule name
  | external key => exact .external key
  | sequence parts => exact .sequence (List.forall₂_same.2 hparts)
  | merge parts => exact .merge (List.forall₂_same.2 hparts)
  | choice parts => exact .choice (List.forall₂_same.2 hparts)
  | repetition body bounds fallback =>
    refine .repetition (hparts body List.mem_cons_self) ?_
    cases fallback with
    | none => exact .none
    | some t => exact .some (hfallback t rfl)
  | ahead body => exact .ahead (hparts body List.mem_cons_self)
  | notAhead body => exact .notAhead (hparts body List.mem_cons_self)
  | omission body => exact .omission (hparts body List.mem_cons_self)

theorem getElem?_rel {α α' : Type} {R : α → α' → Prop} {l : List α} {l' : List α'} (h : List.Forall₂ R l l') (i : Nat) :
    Option.Rel R l[i]? l'[i]? := by
  induction h generalizing i with
  | nil => exact .none
  | cons ha _ ih =>
    cases i with
    | zero => exact .some ha
    | succ i => exact ih i

theorem Verdicts.holds {v v' : Verdict} (hv : K.Verdicts v v') : v.holds = v'.holds := by cases hv <;> rfl

theorem Attempts.failure {cause : Cause} {l l' : Location} (hl : K.location l l') :
    K.Attempts (.failure cause l) (.failure cause l') := .settled (.failed ⟨rfl, hl⟩)

theorem Tries.exhausted {tried tried' : Tried} {rest : List Char} {l l' : Location} (htried : K.Tries tried tried')
    (hl : K.location l l') : K.Attempts (tried.exhausted rest l) (tried'.exhausted rest l') := by
  obtain ⟨hfurthest, hrecursion⟩ := htried
  obtain ⟨furthest, recursion⟩ := tried
  obtain ⟨furthest', recursion'⟩ := tried'
  cases hfurthest with
  | some hf => exact .settled (.failed ⟨by simp only [Failure.exhausted, hf.cause], hf.stop⟩)
  | none =>
    cases hrecursion with
    | some hs => exact .recursion hs
    | none => exact .failure hl

namespace Runs

variable {run run' : Run}

theorem here (h : K.Runs run run') : K.Settings run.here run'.here :=
  ⟨h.collected.cursor, h.setting.rule, h.setting.skipping⟩

theorem next {acc acc' : Accumulator} (h : K.Runs run run') (hacc : K.Collections acc acc') (silence : Option Silence) :
    K.Runs (run.next acc silence) (run'.next acc' silence) :=
  ⟨h.parts, h.flatten, h.setting, hacc, congrArg (· + 1) h.done, rfl, h.growing, h.needsSeed⟩

theorem new {parts parts' : List Expr} {setting setting' : Setting} (hparts : List.Forall₂ K.expr parts parts')
    (hsetting : K.Settings setting setting') (flatten : Bool) (done : Nat) :
    K.Runs (.new parts flatten setting done) (.new parts' flatten setting' done) :=
  ⟨hparts, rfl, hsetting, .new hsetting.position, rfl, rfl, rfl, rfl⟩

end Runs

namespace Holds

variable (hK : K.Holds job job')
include hK

/-! ## Collecting -/

section

variable {acc acc' : Accumulator} {l l' : Location} {t t' : Tree}

theorem pass (h : K.Collections acc acc') (hl : K.location l l') :
    K.Collections (acc.pass job.input l) (acc'.pass job'.input l') := by
  have hcursor := hK.moveTo h.cursor hl
  refine ⟨h.start, ?_, hcursor, rfl, h.results⟩
  show K.position (if _ then _ else _) (if _ then _ else _)
  have hlt := hK.lt (hK.place h.stop) (hK.place hcursor)
  split <;> split <;> first | exact hcursor | exact h.stop | simp_all

theorem add (h : K.Collections acc acc') (ht : K.tree t t') :
    K.Collections (acc.add job.input t) (acc'.add job'.input t') := by
  have hextent := hK.extent ht
  have hpass := hK.pass h hextent.stop
  refine ⟨?_, hpass.stop, hpass.cursor, rfl, ?_⟩
  · show K.position (if _ then _ else _) (if _ then _ else _)
    rw [h.begun]
    split
    · exact h.start
    · exact hK.moveTo h.cursor hextent.start
  · show List.Forall₂ K.tree (acc.results.push t).toList (acc'.results.push t').toList
    rw [Array.toList_push, Array.toList_push]
    exact List.rel_append h.results (.cons ht .nil)

theorem addAll {items items' : List Tree} (hitems : List.Forall₂ K.tree items items') :
    ∀ {acc acc' : Accumulator}, K.Collections acc acc' →
      K.Collections (items.foldl (.add job.input) acc) (items'.foldl (.add job'.input) acc') := by
  induction hitems with
  | nil => exact id
  | cons ht _ ih => exact fun h => ih (hK.add h ht)

theorem skip (h : K.Collections acc acc') (hl : K.location l l') :
    K.Collections (acc.skip job.input l) (acc'.skip job'.input l') := by
  have hcursor := hK.moveTo h.cursor hl
  unfold Accumulator.skip
  simp only
  rw [h.begun]
  split
  · exact ⟨h.start, h.stop, hcursor, rfl, h.results⟩
  · exact ⟨hcursor, hcursor, hcursor, rfl, h.results⟩

theorem skip? (h : K.Collections acc acc') (hl : K.location l l') :
    Option.Rel K.Collections (acc.skip? job.input l) (acc'.skip? job'.input l') := by
  have hle := hK.le hl (hK.place h.cursor)
  unfold Accumulator.skip?
  by_cases hstop : l ≤ acc.cursor.location
  · rw [if_pos hstop, if_pos (hle.1 hstop)]
    exact .none
  · rw [if_neg hstop, if_neg fun h => hstop (hle.2 h)]
    exact .some (hK.skip h hl)

theorem span (h : K.Collections acc acc') : K.Spans (acc.span job.input) (acc'.span job'.input) := hK.ofPositions h.start h.stop

theorem tree (h : K.Collections acc acc') : K.tree (acc.tree job.input) (acc'.tree job'.input) := by
  have hspan := hK.span h
  have hresults := h.results
  unfold Accumulator.tree
  generalize acc.results.toList = items at hresults
  generalize acc'.results.toList = items' at hresults
  rcases hresults with _ | ⟨ht, _ | ⟨hu, hrest⟩⟩
  · exact hK.list hspan .nil
  · exact hK.inside ht hspan
  · exact hK.list hspan (.cons ht (.cons hu hrest))

theorem isNil (h : K.tree t t') : t.isNil = t'.isNil := by
  have hitems := hK.items h
  have hnil (u : Tree) : u.isNil = u.items?.any List.isEmpty := by cases u <;> rfl
  rw [hnil, hnil]
  generalize t.items? = items at hitems
  generalize t'.items? = items' at hitems
  rcases hitems with (_ | _) | _ <;> rfl

end

/-! ## Memory and the mark -/

theorem beq {q q' r r' : Question} (hq : K.Questions q q') (hr : K.Questions r r') : (q == r) = (q' == r') := by
  show (q.location == r.location && q.expr.same r.expr && q.skipping.same r.skipping) =
    (q'.location == r'.location && q'.expr.same r'.expr && q'.skipping.same r'.skipping)
  have hplace : (q.location == r.location) = (q'.location == r'.location) :=
    Bool.eq_iff_iff.2 (by simpa using hK.eq_iff hq.location hr.location)
  rw [hplace, hK.same hq.expr hr.expr, hK.sameSkipping hq.skipping hr.skipping]

theorem find? {m m' : Memory} {q q' : Question} (hm : K.Memories m m') (hq : K.Questions q q') :
    Option.Rel K.Verdicts (m.find? q) (m'.find? q') := by
  unfold Memory.find?
  have hcells := hm _ _ hq.location
  generalize m.cell q.location = cell at hcells
  generalize m'.cell q'.location = cell' at hcells
  induction hcells with
  | nil => exact .none
  | @cons a a' _ _ ha _ ih =>
    rw [List.lookup_cons, List.lookup_cons, hK.beq hq ha.1]
    split
    · exact .some ha.2
    · exact ih

theorem insert {m m' : Memory} {q q' : Question} {v v' : Verdict} (hm : K.Memories m m') (hq : K.Questions q q')
    (hv : K.Verdicts v v') : K.Memories (m.insert q v) (m'.insert q' v') := by
  intro l l' hl
  rw [Memory.cell_insert, Memory.cell_insert]
  have hothers : List.Forall₂ (fun a a' => K.Questions a.1 a'.1 ∧ K.Verdicts a.2 a'.2)
      ((m.cell l).filter (·.1 != q)) ((m'.cell l').filter (·.1 != q')) := by
    have hcells := hm l l' hl
    generalize m.cell l = cell at hcells
    generalize m'.cell l' = cell' at hcells
    induction hcells with
    | nil => exact .nil
    | @cons a a' _ _ ha _ ih =>
      have hne : (a.1 != q) = (a'.1 != q') := congrArg not (hK.beq ha.1 hq)
      rw [List.filter_cons, List.filter_cons, hne]
      split
      · exact .cons ha ih
      · exact ih
  have hplace := hK.eq_iff hq.location hl
  by_cases h : q.location = l
  · rw [if_pos h, if_pos (hplace.1 h)]
    exact .cons ⟨hq, hv⟩ hothers
  · rw [if_neg h, if_neg fun h' => h (hplace.2 h')]
    exact hm l l' hl

theorem reenters {s s' : Session} {e e' : Expr} {l l' : Location} (hs : K.Sessions s s') (he : K.expr e e')
    (hl : K.location l l') : s.reenters e l = s'.reenters e' l' := by
  have hshape := hK.shape he
  cases hshape with
  | rule name =>
    have hmarks := hs.entered
    unfold Session.reenters
    generalize s.entered = mark at hmarks
    generalize s'.entered = mark' at hmarks
    cases hmarks with
    | none => rfl
    | @some a a' ha =>
      obtain ⟨rule, place⟩ := a
      obtain ⟨rule', place'⟩ := a'
      obtain ⟨rfl, hplace⟩ := ha
      refine Bool.eq_iff_iff.2 ?_
      simp only [beq_iff_eq, Option.some.injEq, Prod.mk.injEq, hK.eq_iff hplace hl]
  | _ => rfl

theorem lookUp {q q' : Question} (hq : K.Questions q q') :
    K.Steps (Option.Rel K.Verdicts) (Eval.lookUp job q) (Eval.lookUp job' q') := by
  unfold Eval.lookUp
  rw [← hK.remember]
  split
  · refine .bind_get fun s s' hs => ?_
    have hfound := hK.find? hs.memory hq
    generalize s.memory.find? q = found at hfound
    generalize s'.memory.find? q' = found' at hfound
    cases hfound with
    | none => exact .bind .count fun _ _ _ => .pure .none
    | some hv => exact .bind .count fun _ _ _ => .bind .emit fun _ _ _ => .pure (.some hv)
  · exact .pure .none

theorem remembering {q q' : Question} {a a' : Attempt} (hq : K.Questions q q') (ha : K.Attempts a a') :
    K.Steps K.Attempts (Eval.remember job q a) (Eval.remember job' q' a') := by
  unfold Eval.remember
  rw [← hK.remember]
  split
  · cases ha with
    | settled hv =>
      exact .bind (.modify fun s s' hs => ⟨hK.insert hs.memory hq hv, hs.entered⟩) fun _ _ _ => .pure (.settled hv)
    | recursion hs =>
      cases hs with
      | none => exact .pure (.recursion .none)
      | some hworks => exact .pure (.recursion (.some (List.rel_append hworks (.cons (.memory hq) .nil))))
    | broken error => exact .pure (.broken error)
  · exact .pure ha

omit hK in
theorem nested {rule : Option String} {l l' : Location} {work work' : Eval Attempt} (hl : K.location l l')
    (h : K.Steps K.Attempts work work') : K.Steps K.Attempts (Eval.nested job rule l work) (Eval.nested job' rule l' work') := by
  refine .bind_get fun s s' hs => .bind_get fun t t' ht => ?_
  refine .bind (.modify fun u u' hu => ⟨hu.memory, ?_⟩) fun _ _ _ => .bind .count fun _ _ _ => .bind h fun a a' ha => ?_
  · show K.Marks ((rule.map (·, l)).or u.entered) ((rule.map (·, l')).or u'.entered)
    cases rule with
    | none => exact hu.entered
    | some name => exact .some ⟨rfl, hl⟩
  · refine .bind (.modify fun u u' hu => ⟨hu.memory, ?_⟩) fun _ _ _ => .pure ha
    show K.Marks (if rule.isSome then t.entered else u.entered) (if rule.isSome then t'.entered else u'.entered)
    split
    · exact ht.entered
    · exact hu.entered

end Holds

end Packrat.Correspondence

/-
The events of a parse. Rules are left in the reverse order of being entered, whatever a parse comes to: a
rule that signals, is set aside or breaks off is left like any other, and work that is resumed for it
later reports neither. What is counted is what is reported. Both follow from what each step adds to the
events and to the counts.
-/
import Packrat.Parse.Answer
import Packrat.Proofs.Session.Passage

namespace Packrat

/-! ## Events in order -/

/-- Every rule that is entered is left, after the rules that were entered in the meantime. -/
inductive Bracketed : List Event → Prop
  | nil : Bracketed []
  | rule {name : String} {location : Location} {holds : Bool} {inner rest : List Event} : Bracketed inner →
    Bracketed rest → Bracketed (.enter name location :: inner ++ .leave name holds :: rest)
  | other {event : Event} {rest : List Event} : (∀ name location, event ≠ .enter name location) →
    (∀ name holds, event ≠ .leave name holds) → Bracketed rest → Bracketed (event :: rest)

theorem Bracketed.append {events more : List Event} (h : Bracketed events) (h' : Bracketed more) :
    Bracketed (events ++ more) := by
  induction h with
  | nil => exact h'
  | rule hinner _ _ ih =>
    rw [List.append_assoc, List.cons_append]
    exact .rule hinner ih
  | other henter hleave _ ih => exact .other henter hleave ih

/-- What is both counted and reported as an event. -/
inductive Happening where
  | rule
  | hit
  | backtrack
  | reentry
  | resumption
deriving DecidableEq

/-- What an event reports; leaving a rule is not counted. -/
def Event.happening? : Event → Option Happening
  | .enter .. => some .rule
  | .leave .. => none
  | .answered _ => some .hit
  | .reentry .. => some .reentry
  | .resume _ => some .resumption
  | .backtrack .. => some .backtrack

/-- How many of some events report the same. -/
def Happening.among (what : Happening) (events : List Event) : Nat := events.countP (·.happening? == some what)

/-- How often something was counted. -/
def Counts.number (c : Counts) : Happening → Nat
  | .rule => c.rules
  | .hit => c.hits
  | .backtrack => c.backtracks
  | .reentry => c.reentries
  | .resumption => c.resumptions

namespace Happening

variable {what : Happening}

theorem among_append (events more : List Event) : what.among (events ++ more) = what.among events + what.among more :=
  List.countP_append

theorem among_cons (event : Event) (events : List Event) :
    what.among (event :: events) = what.among events + if event.happening? = some what then 1 else 0 := by
  unfold among
  rw [List.countP_cons]
  simp

end Happening

/-! ## What steps report -/

/-- The events since the first session are in order, and just what they report was counted. -/
def Session.Reports (s t : Session) : Prop :=
  ∃ events, t.events.toList = s.events.toList ++ events ∧ Bracketed events ∧
    ∀ what, t.counts.number what = s.counts.number what + what.among events

namespace Session.Reports

variable {s t u : Session}

/-- Nothing was reported or counted. -/
theorem nothing (he : t.events = s.events) (hc : ∀ what, t.counts.number what = s.counts.number what) : s.Reports t :=
  ⟨[], by rw [he, List.append_nil], .nil, hc⟩

theorem trans (h : s.Reports t) (h' : t.Reports u) : s.Reports u := by
  obtain ⟨events, he, hb, hc⟩ := h
  obtain ⟨more, he', hb', hc'⟩ := h'
  refine ⟨events ++ more, by rw [he', he, List.append_assoc], hb.append hb', fun what => ?_⟩
  rw [hc', hc, Happening.among_append, Nat.add_assoc]

/-- One thing was reported and counted. -/
theorem one {event : Event} (what : Happening) (hw : event.happening? = some what) (hn : what ≠ .rule)
    (he : t.events = s.events.push event)
    (hc : ∀ other, t.counts.number other = s.counts.number other + if other = what then 1 else 0) : s.Reports t := by
  refine ⟨[event], by rw [he, Array.toList_push], .other (fun _ _ h => ?_) (fun _ _ h => ?_) .nil, fun other => ?_⟩
  · subst h
    cases hw
    exact hn rfl
  · subst h
    cases hw
  · rw [hc, Happening.among_cons, hw]
    simp [Happening.among, eq_comm]

/-- A rule was entered and left again. -/
theorem rule (name : String) (location : Location) {holds : Bool} {v w : Session}
    (hs : t.events = s.events.push (.enter name location))
    (hc : ∀ other, t.counts.number other = s.counts.number other + if other = .rule then 1 else 0) (h : t.Reports v)
    (he : w.events = v.events.push (.leave name holds)) (hc' : w.counts = v.counts) : s.Reports w := by
  obtain ⟨inner, hinner, hb, hcount⟩ := h
  refine ⟨.enter name location :: inner ++ [.leave name holds], ?_, .rule hb .nil, fun other => ?_⟩
  · rw [he, Array.toList_push, hinner, hs, Array.toList_push]
    simp
  · rw [hc', hcount, hc, List.cons_append, Happening.among_cons, Happening.among_append]
    simp [Happening.among, Event.happening?, eq_comm]
    omega

end Session.Reports

/-- Where events are reported and counts are kept, every step reports in order what it counts. -/
theorem Job.reports {job : Job} (hcounting : job.options.counting = true) (htracing : job.options.tracing = true) :
    Passage job Session.Reports where
  refl s := .nothing rfl fun _ => rfl
  trans := .trans
  answered s := by
    simp only [Eval.on_bind, Eval.on_count, Eval.on_emit, hcounting, htracing, if_true]
    exact .one .hit rfl (by decide) rfl fun other => by cases other <;> rfl
  missed s := by
    simp only [Eval.on_count, hcounting, if_true]
    exact .nothing rfl fun other => by cases other <;> rfl
  recorded s := .nothing rfl fun _ => rfl
  reentered s := by
    simp only [Eval.reportReentry, Eval.on_bind, Eval.on_note, Eval.on_count, Eval.on_emit, hcounting, htracing, if_true]
    exact .one .reentry rfl (by decide) rfl fun other => by cases other <;> rfl
  failed s := by
    simp only [Eval.on_bind, Eval.on_count, Eval.on_emit, hcounting, htracing, if_true]
    exact .one .backtrack rfl (by decide) rfl fun other => by cases other <;> rfl
  resumed s := by
    simp only [Eval.on_bind, Eval.on_note, Eval.on_count, Eval.on_emit, hcounting, htracing, if_true]
    exact .one .resumption rfl (by decide) rfl fun other => by cases other <;> rfl
  grown s := by
    simp only [Eval.on_bind, Eval.on_note, Eval.on_count, hcounting, if_true]
    exact .nothing rfl fun other => by cases other <;> rfl
  nested hwork s := by
    simp only [Eval.nested, Eval.on_bind, Eval.on_get, Eval.on_modify, Eval.on_count, Eval.on_pure, hcounting, if_true]
    refine .trans ?_ (.trans (hwork _) (.nothing rfl fun _ => rfl))
    exact .nothing rfl fun other => by cases other <;> rfl
  entered {name location work} hwork s := by
    simp only [Eval.on_bind, Eval.on_count, Eval.on_emit, Eval.on_pure, hcounting, htracing, if_true]
    exact .rule name location rfl (fun other => by cases other <;> rfl) (hwork _) rfl rfl

/-- Where events are reported and counts are kept, whatever a parse comes to, rules are left in the
reverse order of being entered, and there are as many events of each kind as were counted. -/
theorem Grammar.parse_traces (g : Grammar) (options : Options) (externals : Externals) (input : List Char) :
    let answer := g.parse { options with counting := true, tracing := true } externals input
    Bracketed answer.events ∧ ∀ what, what.among answer.events = answer.counts.number what := by
  intro answer
  let job := Job.new g (.rule g.start) { options with counting := true, tracing := true } externals input
  obtain ⟨events, he, hb, hc⟩ := (job.reports rfl rfl).applyWithin options.depthLimit (.rule g.start) .start .start
  have hevents : answer.events = events := he
  rw [hevents]
  refine ⟨hb, fun what => ?_⟩
  have hcount : answer.counts.number what = Counts.zero.number what + what.among events := hc what
  rw [hcount]
  cases what <;> exact (Nat.zero_add _).symm

end Packrat

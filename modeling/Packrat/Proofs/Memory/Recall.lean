/-
What a steady parse remembers. Without a memory, an expression comes to the verdict that is remembered
on it wherever the question is asked. Nothing is promised of the recursive alternatives of cycles that
begin with the rule. A verdict on a recursive alternative, be it the rule itself, is remembered only
where one on the body is, so that it is never asked for there.
-/
import Packrat.Proofs.Memory.Echo

namespace Packrat

open Filter Stance

/-- A verdict that a parse without a memory comes to as well, or one on a recursive alternative. -/
inductive Job.Recalled (job : Job) (cycles : List Cycle) : Question → Verdict → Prop
  | outside {e : Expr} {setting : Setting} {v : Verdict} : job.Fair cycles [] e setting →
    (Attempt.settled v).Definite job.input → job.Tells e setting (.settled v) → Recalled job cycles (.of e setting) v
  | body {r : Cycle} {setting : Setting} {v : Verdict} : r ∈ cycles → setting.position.Sits job.input →
    job.grammar.Mode setting.skipping → (Attempt.settled v).Definite job.input →
    (∀ᶠ n in atTop, (applyWithin job.forgetful n r.body (setting.under (some r.name))).Tells
      (some (r.name, setting.location)) (.settled v)) → Recalled job cycles (.of r.body setting) v
  | step {r : Cycle} {s : Expr} {setting : Setting} {v : Verdict} : r ∈ cycles → s ∈ r.steps → s ≠ .rule r.name →
    Recalled job cycles (.of s setting) v

/-- A memory of such verdicts, in which those on recursive alternatives are backed by ones on the body
where the rule is entered. -/
structure Job.Retains (job : Job) (cycles : List Cycle) (m : Memory) : Prop where
  keeps : m.Keeps (job.Recalled cycles)
  backed : ∀ r ∈ cycles, ∀ s ∈ r.steps, ∀ setting,
    (m.find? (.of s setting)).isSome → (m.find? (.of r.body (job.within r.name setting))).isSome

/-- Where expressions that count as the same are the same, so are the settings of a question. -/
theorem Setting.eq_under {job : Job} {cycles : List Cycle} {setting setting' : Setting} (hj : job.Steady cycles)
    (hs : setting.position.Sits job.input) (hs' : setting'.position.Sits job.input)
    (hm : job.grammar.Mode setting.skipping) (hm' : job.grammar.Mode setting'.skipping)
    (hl : setting'.location = setting.location) (hsame : setting.skipping.same setting'.skipping = true) :
    setting' = setting.under setting'.rule := by
  obtain ⟨p, rule, mode⟩ := setting
  obtain ⟨p', rule', mode'⟩ := setting'
  cases hs'.ext hs hl
  cases hm.eq_of_same hj.distinct hm' hsame
  rfl

namespace Job.Retains

variable {job : Job} {cycles : List Cycle} {r : Cycle} {m : Memory} {e s : Expr} {setting : Setting} {v w : Verdict}
  {marks : List Mark}

theorem empty : job.Retains cycles .empty := ⟨Memory.keeps_empty, fun _ _ _ _ _ h => by simp at h⟩

/-- What is found for an expression outside of the recursive alternatives. -/
theorem find (hj : job.Steady cycles) (h : job.Retains cycles m) (hf : job.Fair cycles marks e setting)
    (hv : m.find? (.of e setting) = some v) :
    (Attempt.settled v).Definite job.input ∧ job.Tells e setting (.settled v) := by
  obtain ⟨q, hq, hl, he, hm⟩ := h.keeps.find hv
  cases hq with
  | @outside e' setting' _ hf' hd ht =>
    cases hj.distinct _ _ (hj.has_outside hf.outside) (hj.has_outside hf'.outside) he
    rw [Setting.eq_under hj hf.sits hf'.sits hf.reached.has.2.1 hf'.reached.has.2.1 hl hm] at ht
    exact ⟨hd, ht⟩
  | body hr =>
    cases hj.distinct _ _ (hj.has_outside hf.outside) (hj.has_body hr) he
    exact absurd hf.outside (hj.bodies _ hr)
  | step hr hs hne =>
    cases hj.distinct _ _ (hj.has_outside hf.outside) (hj.has_step hr hs) he
    exact absurd hf.outside (hj.apart _ hr _ hs hne)

/-- What is found for the body of a cycle. -/
theorem find_body (hj : job.Steady cycles) (h : job.Retains cycles m) (hr : r ∈ cycles) (hrule : setting.rule = some r.name)
    (hs : setting.position.Sits job.input) (hm : job.grammar.Mode setting.skipping)
    (hv : m.find? (.of r.body setting) = some v) : (Attempt.settled v).Definite job.input ∧
      ∀ᶠ n in atTop, (applyWithin job.forgetful n r.body setting).Tells (some (r.name, setting.location)) (.settled v) := by
  obtain ⟨q, hq, hl, he, hsame⟩ := h.keeps.find hv
  cases hq with
  | @outside e' setting' _ hf' =>
    cases hj.distinct _ _ (hj.has_body hr) (hj.has_outside hf'.outside) he
    exact absurd hf'.outside (hj.bodies _ hr)
  | @body r' setting' _ hr' hs' hm' hd ht =>
    have hbody : r.body = r'.body := hj.distinct _ _ (hj.has_body hr) (hj.has_body hr') he
    have hunder : setting'.under (some r'.name) = setting := by
      rw [Setting.eq_under hj hs hs' hm hm' hl hsame, ← hj.name_of_body hr hr' hbody, ← hrule]
      rfl
    rw [hunder, ← hbody, ← hj.name_of_body hr hr' hbody, show setting'.location = setting.location from hl] at ht
    exact ⟨hd, ht⟩
  | step hr' hs' =>
    exact absurd (hj.distinct _ _ (hj.has_body hr) (hj.has_step hr' hs') he).symm (hj.step_ne_body hr' hs' r)

/-- Where no verdict on the body is remembered, none is on a recursive alternative. -/
theorem find_step (h : job.Retains cycles m) (hr : r ∈ cycles) (hs : s ∈ r.steps)
    (hin : job.skippingIn r.name setting.skipping = setting.skipping) (hn : m.find? (.of r.body setting) = none) :
    m.find? (.of s setting) = none := by
  by_contra hsome
  have hbody := h.backed r hr s hs setting (Option.isSome_iff_ne_none.2 hsome)
  rw [Job.of_within hin, hn] at hbody
  cases hbody

/-- A verdict leaves the others backed. If it is one on a recursive alternative, there is to be one on the
body. -/
theorem insert (hj : job.Steady cycles) (h : job.Retains cycles m) (he : job.grammar.Has e)
    (hb : ∀ r ∈ cycles, e ∈ r.steps → (m.find? (.of r.body (job.within r.name setting))).isSome)
    (hv : job.Recalled cycles (.of e setting) v) : job.Retains cycles (m.insert (.of e setting) v) := by
  refine ⟨h.keeps.insert hv, fun r hr s hs setting' hsome => Memory.isSome_find?_insert ?_⟩
  rw [Memory.find?_insert] at hsome
  split at hsome
  · next hsame =>
    have hcontent := Question.beq_iff.1 hsame
    cases hj.distinct _ _ (hj.has_step hr hs) he (Expr.same_iff.2 (congrArg Question.expr hcontent))
    rw [Memory.find?_congr (job.within_beq r.name r.body hsame)]
    exact hb r hr hs
  · exact h.backed r hr s hs setting' hsome

theorem insert_outside (hj : job.Steady cycles) (h : job.Retains cycles m) (hf : job.Fair cycles marks e setting)
    (hb : ∀ r ∈ cycles, e = .rule r.name → (m.find? (.of r.body (job.within r.name setting))).isSome)
    (hd : (Attempt.settled v).Definite job.input) (ht : job.Tells e setting (.settled v)) :
    job.Retains cycles (m.insert (.of e setting) v) := by
  refine h.insert hj (hj.has_outside hf.outside) (fun r hr hs => hb r hr ?_) (.outside ?_ hd ht)
  · by_contra hne
    exact hj.apart r hr e hs hne hf.outside
  · exact ⟨hf.outside, hf.reached, hf.sits, List.forall_mem_nil _⟩

theorem insert_body (hj : job.Steady cycles) (h : job.Retains cycles m) (hr : r ∈ cycles)
    (hv : job.Recalled cycles (.of r.body setting) v) : job.Retains cycles (m.insert (.of r.body setting) v) :=
  h.insert hj (hj.has_body hr) (fun _ hr' hs => absurd rfl (hj.step_ne_body hr' hs r)) hv

/-- Verdicts on a recursive alternative and then on the body are remembered. -/
theorem insert_both (hj : job.Steady cycles) (h : job.Retains cycles m) (hr : r ∈ cycles) (hs : s ∈ r.steps)
    (hne : s ≠ .rule r.name) (hin : job.skippingIn r.name setting.skipping = setting.skipping)
    (hv : job.Recalled cycles (.of r.body setting) v) :
    job.Retains cycles ((m.insert (.of s setting) w).insert (.of r.body setting) v) := by
  refine ⟨(h.keeps.insert (.step hr hs hne)).insert hv, fun r' hr' s' hs' setting' hsome => ?_⟩
  rw [Memory.find?_insert]
  split
  · rfl
  · next hb =>
    refine Memory.isSome_find?_insert (h.backed r' hr' s' hs' setting' ?_)
    rw [Memory.find?_insert, Memory.find?_insert] at hsome
    split at hsome
    · next hb' =>
      -- the recursive alternative is not the body
      have hsame : s'.same r.body = true := Expr.same_iff.2 (congrArg Question.expr (Question.beq_iff.1 hb'))
      exact absurd (hj.distinct _ _ (hj.has_step hr' hs') (hj.has_body hr) hsame) (hj.step_ne_body hr' hs' r)
    · split at hsome
      · next hb' =>
        -- the two questions ask for the same place under the same skipper
        have hsame : s'.same s = true := Expr.same_iff.2 (congrArg Question.expr (Question.beq_iff.1 hb'))
        cases hj.distinct _ _ (hj.has_step hr' hs') (hj.has_step hr hs) hsame
        refine absurd ?_ hb
        have hname := hj.name_of_step hr hr' hs hs'
        rw [← Job.of_within hin, ← hname, ← hj.body_of_name hr hr' hname]
        exact job.within_beq r.name r.body hb'
      · exact hsome

end Job.Retains

end Packrat

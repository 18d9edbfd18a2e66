/-
Results lie on the ground. Where leaves find what they find on some ground, and fallbacks are put there,
everything that is tried, collected and skipped stays on it. In the text it is then the same to get
further by lines and columns and to take input.
-/
import Packrat.Proofs.Contract.Kept
import Packrat.Proofs.Parse.Concurrence

namespace Packrat

section

variable {job : Job} {G : Ground job.input} {p : Position}

/-- What is found is on the ground. -/
def Ground.presence (G : Ground job.input) : Contract job where
  At := G.At
  Ends _ := True
  Fine _ _ v := (Attempt.settled v).Firm G
  Going _ run := run.collected.Stands G
  Grown run cursor t := G.At run.collected.start ∧ G.At cursor ∧ t.Lies G.Loc
  Turning _ _ _ rounds := rounds.collected.Stands G

namespace Ground

theorem presence_plain (hG : G.Bears job) : G.presence.Plain where
  ends _ := trivial
  failed := ⟨fun _ => trivial, fun _ => trivial⟩
  same _ _ _ h := h
  moved _ _ _ h := h
  literal _ hp := hG.literal _ hp
  pattern hhas hp := hG.pattern hhas hp
  external hhas hp := hG.external hhas hp
  wrapped _ hv ht := Grammar.lies_produce ht hv
  passed _ _ hv := hv
  chosen _ _ hv := hv
  ahead _ := trivial
  notAhead _ := trivial
  omission {body setting v w} _ hp hv hw := by
    have hfirm : (omissionAttempt job setting (.settled v)).Firm G := omissionAttempt_firm hp hv
    rwa [hw] at hfirm

/-- What a skipper takes ends on the ground. -/
theorem presence_skips {mode : SkipMode} {stop : Location} (h : G.presence.Skips mode p stop) : G.Loc stop := by
  obtain ⟨_, v, -, hv, hstop, -⟩ := h
  cases v with
  | matched t =>
    cases hstop
    exact Tree.Lies.stop hv
  | omitted span =>
    cases hstop
    exact hv
  | silent | failed => cases hstop

theorem presence_chains : G.presence.Chains where
  new hp := Accumulator.stands_new hp
  cursor h := h.cursor
  matched _ _ h ht := Run.stands_collect h ht
  omitted _ _ h hs := h.pass hs
  silent _ _ _ h _ := h
  skipped h hs := h.skip (presence_skips hs)
  concluded _ _ h := Run.conclude_firm h
  aside _ h := h
  planted _ _ _ _ _ _ hv ht := by
    rcases ht with rfl | ⟨name, ht⟩
    · exact hv
    · exact Grammar.lies_produce ht hv
  complete _ _ _ _ h := ⟨h.start, h.cursor, h.tree⟩
  tail h := Accumulator.stands_new h.2.1
  grow {run further cursor t more} _ h _ hgoing _ hmore _ := by
    obtain ⟨hstart, hcursor, ht⟩ := h
    have hlies : (Attempt.settled (.matched more)).Firm G := hmore ▸ Run.conclude_firm hgoing
    have hcursor' := G.moveTo hcursor (Tree.Lies.stop hlies)
    refine ⟨hstart, hcursor', .intro (G.location hstart) (G.location hcursor') fun items hi item hm => ?_⟩
    cases hi
    rcases List.mem_cons.1 hm with rfl | hm
    · exact ht
    · exact List.mem_singleton.1 hm ▸ hlies
  grown _ h := h.2.2

theorem presence_turns (hG : G.Bears job) : G.presence.Turns where
  new hp := Accumulator.stands_new hp
  cursor h := h.cursor
  matched h _ ht := h.add ht
  omitted h _ hs := h.pass hs
  skipped h hs := h.skip (presence_skips hs)
  signalled _ _ _ _ _ := trivial
  concluded hhas hp h := Rounds.conclude_firm hG hhas hp h

/-- So whatever a parse finds, it finds on the ground. -/
theorem presence_lawful (hG : G.Bears job) : G.presence.Lawful := ⟨presence_plain hG, presence_chains, presence_turns hG⟩

end Ground

end

end Packrat

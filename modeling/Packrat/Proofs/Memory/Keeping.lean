/-
What memory finds, and what holds of all remembered verdicts. The latest verdict on a question is
found. A property of questions and verdicts that holds of the empty memory and of each verdict that
is remembered holds of whatever is found later. What is found was remembered for a question that
counts as the same, which need not be the one that is asked.
-/
import Packrat.Parse.Memory
import Packrat.Proofs.Expr.Content

namespace Packrat.Memory

/-! ## Finding -/

@[simp] theorem find?_empty (q : Question) : empty.find? q = none := by simp [find?]

theorem lookup_filter {q q' : Question} (h : (q' == q) = false) : ∀ l : List (Question × Verdict),
    (l.filter (·.1 != q)).lookup q' = l.lookup q'
  | [] => rfl
  | (k, v) :: l => by
    rw [List.filter_cons, List.lookup_cons]
    cases hk : q' == k with
    | true =>
      -- an entry that answers the question is not the one that is replaced
      have : (k == q) = false := by rw [← BEq.congr_left hk, h]
      simp [bne, this, List.lookup_cons, hk]
    | false =>
      split
      · simp [List.lookup_cons, hk, lookup_filter h l]
      · exact lookup_filter h l

/-- The verdict that was remembered last on a question is found, and other questions are not
affected. -/
theorem find?_insert (m : Memory) (q q' : Question) (v : Verdict) :
    (m.insert q v).find? q' = if q' == q then some v else m.find? q' := by
  unfold find?
  rw [cell_insert]
  cases h : q' == q with
  | true =>
    have hl : q.location = q'.location := (congrArg Question.location (Question.beq_iff.1 h)).symm
    simp [hl, List.lookup_cons, h]
  | false =>
    split
    · simp [List.lookup_cons, h, lookup_filter h]
    · rfl

/-- What counts as the same question is found together. -/
theorem find?_congr {m : Memory} {q q' : Question} (h : (q == q') = true) : m.find? q = m.find? q' := by
  have hl : q.content.location = q'.content.location := congrArg Question.location (Question.beq_iff.1 h)
  have hl : q.location = q'.location := hl
  unfold find?
  rw [hl]
  generalize m.cell q'.location = cell
  induction cell with
  | nil => rfl
  | cons entry cell ih => rw [List.lookup_cons, List.lookup_cons, BEq.congr_left h, ih]

theorem isSome_find?_insert {m : Memory} {q q' : Question} {v : Verdict} (h : (m.find? q').isSome) :
    ((m.insert q v).find? q').isSome := by
  rw [find?_insert]
  split
  · rfl
  · exact h

/-! ## Keeping -/

/-- A property of all remembered verdicts. -/
def Keeps (G : Question → Verdict → Prop) (m : Memory) : Prop :=
  ∀ location q v, (q, v) ∈ m.cell location → q.location = location ∧ G q v

variable {G : Question → Verdict → Prop} {m : Memory}

theorem keeps_empty : Keeps G empty := by
  intro location q v h
  simp at h

theorem Keeps.insert {q : Question} {v : Verdict} (h : Keeps G m) (hv : G q v) : Keeps G (m.insert q v) := by
  intro location q' v' hm
  rw [cell_insert] at hm
  split at hm
  · next hl =>
    rcases List.mem_cons.1 hm with he | hm
    · cases he
      exact ⟨hl, hv⟩
    · exact h _ _ _ (List.mem_filter.1 hm).1
  · exact h _ _ _ hm

theorem mem_of_lookup_beq {α β : Type} [BEq α] {a : α} {b : β} :
    ∀ {l : List (α × β)}, l.lookup a = some b → ∃ a', (a', b) ∈ l ∧ (a == a') = true
  | (a', b') :: l, h => by
    rw [List.lookup_cons] at h
    cases hb : a == a' with
    | true =>
      rw [hb] at h
      cases h
      exact ⟨a', List.mem_cons_self, hb⟩
    | false =>
      rw [hb] at h
      obtain ⟨a'', hm, ha⟩ := mem_of_lookup_beq h
      exact ⟨a'', List.mem_cons_of_mem _ hm, ha⟩

theorem Keeps.find {q : Question} {v : Verdict} (h : Keeps G m) (hv : m.find? q = some v) :
    ∃ q', G q' v ∧ q'.location = q.location ∧ q.expr.same q'.expr = true ∧ q.skipping.same q'.skipping = true := by
  obtain ⟨q', hm, hb⟩ := mem_of_lookup_beq hv
  obtain ⟨hl, hG⟩ := h _ _ _ hm
  simp only [BEq.beq, Bool.and_eq_true] at hb
  exact ⟨q', hG, hl, hb.1.2, hb.2⟩

end Packrat.Memory

/-
What a parse gains. As long as no rule comes back to itself and the nesting stays within its limit, an
expression that is tried comes to what it comes to with nothing remembered and no rule marked, and every
question that is worked out is remembered. What is worked out on the way goes less deep than the
expression, so nothing asks the question of the expression before it is answered.
-/
import Mathlib.Algebra.GroupWithZero.Nat
import Packrat.Proofs.Memory.Bare
import Packrat.Proofs.Peg.Conformance

namespace Packrat

open Filter Procedure

/-! ## Size -/

namespace Memory

variable {m : Memory} {q : Question} {v : Verdict}

theorem size_eq_sum (m : Memory) : m.size = (m.cells.toList.map (·.2.length)).sum := by
  unfold size
  rw [Std.TreeMap.foldl_eq_foldl_toList, List.sum_eq_foldl, List.foldl_map]

/-- One cell apart from all others. -/
theorem size_eq_cell_add (m : Memory) (location : Location) : m.size = (m.cell location).length +
    ((m.cells.toList.filter (fun c => ¬ location == c.1)).map (·.2.length)).sum := by
  rw [size_eq_sum]
  cases hget : m.cells[location]? with
  | none =>
    have hnil : m.cell location = [] := by
      unfold cell
      rw [Std.TreeMap.getD_eq_getD_getElem?, hget]
      rfl
    have hall : m.cells.toList.filter (fun c => ¬ location == c.1) = m.cells.toList := by
      refine List.filter_eq_self.2 fun c hc => ?_
      have hsome := Std.TreeMap.mem_toList_iff_getElem?_eq_some.1 hc
      rw [decide_eq_true_iff, beq_iff_eq]
      intro heq
      rw [← heq, hget] at hsome
      cases hsome
    rw [hnil, hall]
    exact (Nat.zero_add _).symm
  | some cell =>
    have hcell : m.cell location = cell := by
      unfold Memory.cell
      rw [Std.TreeMap.getD_eq_getD_getElem?, hget]
      rfl
    have hsame : Std.TreeMap.Equiv m.cells (m.cells.insert location cell) := by
      refine .of_forall_constGet?_eq fun other => ?_
      rw [Std.TreeMap.getElem?_insert]
      split
      · next h => rw [← Std.LawfulEqOrd.eq_of_compare h, hget]
      · rfl
    have hperm := (Std.TreeMap.equiv_iff_toList_perm.1 hsame).trans Std.TreeMap.toList_insert_perm
    rw [hcell, (hperm.map _).sum_nat]
    rfl

/-- The first verdict on a question adds one. -/
theorem size_insert (h : m.find? q = none) : (m.insert q v).size = m.size + 1 := by
  have hcell : (m.cell q.location).filter (·.1 != q) = m.cell q.location := by
    refine List.filter_eq_self.2 fun entry he => ?_
    have hne : (q != entry.1) = true := List.lookup_eq_none_iff.1 h _ he
    simpa [bne, BEq.comm] using hne
  rw [size_eq_cell_add m q.location, size_eq_sum]
  unfold insert
  rw [(Std.TreeMap.toList_insert_perm.map _).sum_nat, List.map_cons, List.sum_cons, hcell, List.length_cons]
  omega

end Memory

/-! ## Questions -/

/-- Each element counts as the same as one that is kept when duplicates are erased. -/
theorem exists_mem_eraseDups {α : Type} [BEq α] [EquivBEq α] {a : α} : ∀ {l : List α}, a ∈ l →
    ∃ b ∈ l.eraseDups, (b == a) = true
  | [], h => by cases h
  | b :: l, h => by
    rw [List.eraseDups_cons]
    by_cases hb : (b == a) = true
    · exact ⟨b, List.mem_cons_self, hb⟩
    have hmem : a ∈ l.filter fun c => !c == b := by
      rcases List.mem_cons.1 h with rfl | h
      · exact absurd BEq.rfl hb
      · refine List.mem_filter.2 ⟨h, ?_⟩
        rw [BEq.comm]
        simpa using hb
    obtain ⟨c, hc, hca⟩ := exists_mem_eraseDups hmem
    exact ⟨c, List.mem_cons_of_mem _ hc, hca⟩
termination_by l => l.length
decreasing_by exact Nat.lt_succ_of_le (List.length_filter_le _ _)

instance : EquivBEq Expr where
  rfl := Expr.same_iff.2 rfl
  symm h := Expr.same_iff.2 (Expr.same_iff.1 h).symm
  trans h k := Expr.same_iff.2 ((Expr.same_iff.1 h).trans (Expr.same_iff.1 k))

/-- The questions that a parse may ask: every expression of the grammar at every place of the text and
under every way of skipping. -/
def Job.questions (job : Job) : List Question :=
  job.grammar.exprs.eraseDups.flatMap fun e => (List.range (job.input.length + 1)).flatMap fun offset =>
    job.grammar.modes.map fun mode => ⟨e, Location.origin.after (job.input.take offset), mode⟩

theorem Job.length_questions (job : Job) : job.questions.length =
    job.grammar.exprs.eraseDups.length * (job.input.length + 1) * (1 + job.grammar.overrides.length) := by
  simp [questions, Grammar.modes, List.length_flatMap, Nat.mul_assoc, Nat.add_comm]

section

variable {job : Job} {e e' : Expr} {setting setting' : Setting} {a : Attempt} {v : Verdict} {h k levels : Nat} {ok ok' : Prop}
  {m : Memory} {s t u : Session}

theorem Job.Meets.exists_question (hm : job.Meets e setting) : ∃ q ∈ job.questions, (q == .of e setting) = true := by
  obtain ⟨he, -, hmode⟩ := hm.reaches.has
  obtain ⟨e', he', hsame⟩ := exists_mem_eraseDups he.mem_exprs
  obtain ⟨before, hinput, hoffset, hlocation, -⟩ := hm.sits
  refine ⟨⟨e', Location.origin.after (job.input.take before.length), setting.skipping⟩, ?_, ?_⟩
  · refine List.mem_flatMap.2 ⟨e', he', List.mem_flatMap.2 ⟨before.length, List.mem_range.2 ?_, List.mem_map.2 ⟨_, hmode, rfl⟩⟩⟩
    have := congrArg List.length hinput
    rw [List.length_append] at this
    omega
  · have hbefore : job.input.take before.length = before := by rw [hinput, List.take_left]
    rw [hbefore]
    refine Question.beq_iff.2 ?_
    unfold Question.content Question.of Setting.location
    rw [hlocation, Expr.same_iff.1 hsame]

/-! ## Knowledge -/

/-- The verdict is what the question is answered. -/
def Job.Worth (job : Job) (q : Question) (v : Verdict) : Prop :=
  ∃ e setting h, q = .of e setting ∧ job.Meets e setting ∧ job.Bare e setting (.settled v) h

/-- The memory has the answers to so many questions of the parse. -/
structure Job.Knows (job : Job) (m : Memory) : Prop where
  keeps : m.Keeps job.Worth
  counted : m.size ≤ job.questions.countP fun q => (m.find? q).isSome

namespace Job.Knows

theorem empty : job.Knows .empty := ⟨Memory.keeps_empty, Nat.zero_le _⟩

theorem size_le (hm : job.Knows m) : m.size ≤ job.questions.length := Nat.le_trans hm.counted List.countP_le_length

variable (hc : job.options.counting = true) (hj : job.Bound) (hmeets : job.Meets e setting)
include hc hj hmeets

theorem find (hm : job.Knows m) (hv : m.find? (.of e setting) = some v) : ∃ h, job.Bare e setting (.settled v) h := by
  obtain ⟨_, ⟨e', setting', h, rfl, hmeets', hbare⟩, hl, he, hs⟩ := hm.keeps.find hv
  have htwins := hmeets.twins hj hmeets' he hl.symm hs
  have htwins : Twins False e' setting' e setting := ⟨htwins.expr.symm, htwins.position.symm, htwins.skipping.symm, False.elim⟩
  exact ⟨h, hbare.twin hc hj hmeets' htwins⟩

omit hc hj in
theorem insert (hm : job.Knows m) (hn : m.find? (.of e setting) = none) (hbare : job.Bare e setting (.settled v) h) :
    job.Knows (m.insert (.of e setting) v) := by
  refine ⟨hm.keeps.insert ⟨e, setting, h, rfl, hmeets, hbare⟩, ?_⟩
  obtain ⟨q, hq, hsame⟩ := hmeets.exists_question
  rw [Memory.size_insert hn]
  refine Nat.lt_of_le_of_lt hm.counted ?_
  -- of the questions of the parse, this one is answered now and was not before
  have hmono (l : List Question) : l.countP (fun q => (m.find? q).isSome) ≤
      l.countP fun q => ((m.insert (.of e setting) v).find? q).isSome :=
    List.countP_mono_left fun q _ h => Memory.isSome_find?_insert h
  have hbefore : (m.find? q).isSome = false := by
    rw [Memory.find?_congr hsame, hn]
    rfl
  have hafter : ((m.insert (.of e setting) v).find? q).isSome = true := by
    rw [Memory.find?_insert, hsame]
    rfl
  obtain ⟨l, r, hsplit⟩ := List.append_of_mem hq
  have hl := hmono l
  have hr := hmono r
  rw [hsplit, List.countP_append, List.countP_append, List.countP_cons, List.countP_cons, hbefore, hafter]
  simp only [Bool.false_eq_true, if_false, if_true]
  omega

end Job.Knows

/-! ## Gains -/

/-- A session from which so many levels are left before the nesting reaches its limit. -/
structure Session.Sound (s : Session) (job : Job) (levels : Nat) : Prop where
  depth : s.depth + levels = job.options.depthLimit
  deep : s.depth ≤ s.counts.deepest
  knows : job.Knows s.memory

/-- What is gained from one session to the next. The questions that are answered only now go less deep than
the height, and if all went well, each miss has led to an answer. -/
structure Session.Gains (job : Job) (height : Nat) (well : Prop) (s t : Session) : Prop where
  depth : t.depth = s.depth
  deepest : s.counts.deepest ≤ t.counts.deepest
  knows : job.Knows s.memory → job.Knows t.memory
  lower : ∀ {e setting}, job.Meets e setting → s.memory.find? (.of e setting) = none →
    (t.memory.find? (.of e setting)).isSome → ∃ a, ∃ h ≤ height, job.Bare e setting a h
  balance : well → job.options.remember = true → t.counts.misses + s.memory.size = s.counts.misses + t.memory.size

namespace Session

/-- A session that agrees with the one before has gained nothing. -/
theorem Gains.near (hn : s.Near t) (h : Nat) (ok : Prop) : s.Gains job h ok t where
  depth := hn.depth
  deepest := Nat.le_of_eq hn.deepest.symm
  knows hk := hn.memory ▸ hk
  lower _ hnone hsome := by
    rw [hn.memory, hnone] at hsome
    cases hsome
  balance _ _ := by rw [hn.misses, hn.memory]

theorem Gains.trans (hs : s.Gains job h ok t) (ht : t.Gains job k ok' u) : s.Gains job (max h k) (ok ∧ ok') u where
  depth := ht.depth.trans hs.depth
  deepest := Nat.le_trans hs.deepest ht.deepest
  knows hk := ht.knows (hs.knows hk)
  lower {e setting} hm hnone hsome := by
    cases hfound : t.memory.find? (.of e setting) with
    | none =>
      obtain ⟨a, l, hl, hbare⟩ := ht.lower hm hfound hsome
      exact ⟨a, l, Nat.le_trans hl (Nat.le_max_right h k), hbare⟩
    | some v =>
      obtain ⟨a, l, hl, hbare⟩ := hs.lower hm hnone (by rw [hfound]; rfl)
      exact ⟨a, l, Nat.le_trans hl (Nat.le_max_left h k), hbare⟩
  balance hok hr := by
    have := hs.balance hok.1 hr
    have := ht.balance hok.2 hr
    omega

theorem Gains.sound (hg : s.Gains job h ok t) (hs : s.Sound job levels) : t.Sound job levels where
  depth := hg.depth.symm ▸ hs.depth
  deep := hg.depth.symm ▸ Nat.le_trans hs.deep hg.deepest
  knows := hg.knows hs.knows

theorem Sound.near (hs : s.Sound job levels) (hn : s.Near t) : t.Sound job levels :=
  (Gains.near hn 0 True).sound hs

end Session

/-- What expressions gain, a procedure gains. -/
theorem Concur.gains {α β : Type} [Breakable α] [Breakable β] {job' : Job} {A : Expr → Setting → Expr → Setting → Prop}
    {F : Attempt → Prop} {c : α → β} {Q : α → Prop} {x : Procedure α} {y : Procedure β} {apply : Applier} {alarm : Alarm}
    (hx : Concur job job' A F c Q x y) (hc : job.options.counting = true) (hl : ∀ c : Counts, 0 < c.reentries → alarm.rung c)
    (hp : ∀ e setting, alarm.Persists (apply e setting))
    (h : ∀ {e setting e' setting' s}, A e setting e' setting' → s.Sound job levels →
      alarm.rung ((apply e setting).on s).2.counts ∨ F ((apply e setting).on s).1 ∧ ∃ k,
        job.Bare e' setting' ((apply e setting).on s).1 k ∧
          s.Gains job k (∀ error, ((apply e setting).on s).1 ≠ .broken error) ((apply e setting).on s).2)
    (hs : s.Sound job levels) :
    alarm.rung ((x apply).on s).2.counts ∨ Q ((x apply).on s).1 ∧ ∃ k,
      (∀ᶠ n in atTop, (y (bareWithin job n)).Measures (c ((x apply).on s).1) k) ∧
        s.Gains job k (∀ error, ((x apply).on s).1 ≠ Breakable.broken error) ((x apply).on s).2 := by
  induction hx generalizing s with
  | gives hQ hx hy =>
    obtain ⟨t, hn, hon⟩ := hx s
    rw [hon apply]
    exact .inr ⟨hQ, 0, .of_forall fun n => .of_gives hy _, .near hn _ _⟩
  | @begins _ _ wary e _ setting _ _ _ hA hx hy _ ih =>
    by_cases hre : wary ∧ s.reenters e setting.location = true
    · exact .inl (hx.signal s hre.1 hre.2 alarm apply hp hc hl)
    obtain ⟨t, hn, hon⟩ := hx.run s hre
    rw [hon apply, Eval.on_bind]
    rcases h hA (hs.near hn) with hrung | ⟨hF, k, hbare, hgains⟩
    · exact .inl (hx.persists _ hp _ hrung)
    rcases ih _ hF (hgains.sound (hs.near hn)) with hrung | ⟨hQ, l, hmeasures, hgains'⟩
    · exact .inl hrung
    refine .inr ⟨hQ, max k l, (hbare.and hmeasures).mono fun n hn => .of_begins hy hn.1 hn.2, ?_⟩
    have hall := (Session.Gains.near hn 0 True).trans (hgains.trans hgains')
    rw [Nat.zero_max] at hall
    refine { hall with balance := fun hwell => hall.balance ⟨trivial, fun error heq => ?_, hwell⟩ }
    -- what is malformed ends the procedure
    rw [heq] at hwell
    obtain ⟨t', -, hon'⟩ := hx.breaks error ((apply e setting).on t).2
    exact hwell error (congrArg Prod.fst (hon' apply))

namespace Session

theorem deepest_deeper (hc : job.options.counting = true) {rule : Option String} {location : Location} :
    ((s.missed job).deeper job rule location).counts.deepest = max s.counts.deepest (s.depth + 1) := by
  simp only [Session.deeper, missed, hc, if_true, Bool.true_and]
  split <;> rfl

theorem misses_deeper (hc : job.options.counting = true) (hr : job.options.remember = true) {rule : Option String}
    {location : Location} : ((s.missed job).deeper job rule location).counts.misses = s.counts.misses + 1 := by
  simp only [Session.deeper, missed, hc, hr, if_true, Bool.and_self]

theorem Sound.deeper (hs : s.Sound job (levels + 1)) (hc : job.options.counting = true) (rule : Option String)
    (location : Location) : ((s.missed job).deeper job rule location).Sound job levels := by
  have hdepth := hs.depth
  refine ⟨?_, ?_, hs.knows⟩
  · show s.depth + 1 + levels = _
    omega
  · rw [deepest_deeper hc]
    exact Nat.le_max_right _ _

/-- An expression that is worked out one level deeper goes one level deeper than what it gained there, so
its question was not answered in the meantime. -/
theorem Gains.unanswered (hm : job.Meets e setting) (hf : s.memory.find? (.of e setting) = none)
    (hg : ((s.missed job).deeper job e.reference? setting.location).Gains job h ok t)
    (hbare : job.Bare e setting a (h + 1)) : t.memory.find? (.of e setting) = none := by
  by_contra hsome
  obtain ⟨b, k, hk, hb⟩ := hg.lower hm hf (Option.isSome_iff_ne_none.2 hsome)
  have := (hb.unique hbare).2
  omega

/-- So it is remembered for the first time then, if it is. -/
theorem Gains.recording (hc : job.options.counting = true) (hj : job.Bound) (hm : job.Meets e setting)
    (hf : job.options.remember = true → s.memory.find? (.of e setting) = none)
    (hg : ((s.missed job).deeper job e.reference? setting.location).Gains job h (∀ error, a ≠ .broken error) t)
    (ha : a.Firm (Ground.text job.input)) (hbare : job.Bare e setting a (h + 1)) :
    s.Gains job (h + 1) (∀ error, a ≠ .broken error) ((t.back e.reference? s).recording job (.of e setting) a) := by
  have hdepth : t.depth - 1 = s.depth := by
    rw [hg.depth]
    rfl
  have hdeepest : s.counts.deepest ≤ t.counts.deepest := by
    refine Nat.le_trans ?_ hg.deepest
    rw [deepest_deeper hc]
    exact Nat.le_max_left _ _
  have hlower {e' : Expr} {setting' : Setting} (hm' : job.Meets e' setting') (hn : s.memory.find? (.of e' setting') = none)
      (hsome : (t.memory.find? (.of e' setting')).isSome) : ∃ b, ∃ k ≤ h + 1, job.Bare e' setting' b k := by
    obtain ⟨b, k, hk, hb⟩ := hg.lower hm' hn hsome
    exact ⟨b, k, Nat.le_succ_of_le hk, hb⟩
  by_cases hv : job.options.remember = true ∧ ∃ v, a = .settled v
  · obtain ⟨hr, v, rfl⟩ := hv
    have hnone := hg.unanswered hm (hf hr) hbare
    have hmemory : ((t.back e.reference? s).recording job (.of e setting) (.settled v)).memory =
        t.memory.insert (.of e setting) v := memory_recording hr v
    refine ⟨hdepth, hdeepest, fun hk => ?_, fun {e' setting'} hm' hn hsome => ?_, fun hwell _ => ?_⟩
    · rw [hmemory]
      exact (hg.knows hk).insert hm hnone hbare
    · rw [hmemory, Memory.find?_insert] at hsome
      split at hsome
      · next hsame =>
        have hsame := BEq.symm hsame
        simp only [BEq.beq, Bool.and_eq_true] at hsame
        have htwins := hm.twins hj hm' hsame.1.2 (beq_iff_eq.1 hsame.1.1) hsame.2
        exact ⟨_, h + 1, Nat.le_refl _, hbare.twin hc hj hm htwins⟩
      · exact hlower hm' hn hsome
    · have := hg.balance hwell hr
      rw [misses_deeper hc hr] at this
      rw [hmemory, Memory.size_insert hnone]
      have hsize : ((s.missed job).deeper job e.reference? setting.location).memory = s.memory := rfl
      rw [hsize] at this
      show t.counts.misses + _ = _
      omega
  · have hmemory : ((t.back e.reference? s).recording job (.of e setting) a).memory = t.memory :=
      memory_recording_of_not hv
    refine ⟨hdepth, hdeepest, fun hk => hmemory ▸ hg.knows hk,
      fun hm' hn hsome => hlower hm' hn (hmemory ▸ hsome), fun hwell hr => ?_⟩
    rcases a with v | suspension | error
    · exact absurd ⟨hr, v, rfl⟩ hv
    · exact ha.elim
    · exact absurd rfl (hwell error)

end Session

/-- As long as no rule comes back to itself and levels are left, what comes of an expression is what it
comes to by itself. -/
theorem applyWithin_gains (hc : job.options.counting = true) (hj : job.Bound) : ∀ (levels : Nat) {e : Expr}
    {setting : Setting} {s : Session}, job.Meets e setting → s.Sound job levels →
      (Alarm.strict job.options.depthLimit).rung ((applyWithin job levels e setting).on s).2.counts ∨
        ((applyWithin job levels e setting).on s).1.Firm (Ground.text job.input) ∧ ∃ h,
          job.Bare e setting ((applyWithin job levels e setting).on s).1 h ∧
            s.Gains job h (∀ error, ((applyWithin job levels e setting).on s).1 ≠ .broken error)
              ((applyWithin job levels e setting).on s).2 := by
  intro levels
  induction levels with
  | zero =>
    intro e setting s _ hs
    have hdepth := hs.depth
    have hdeep := hs.deep
    exact .inl (.inl (show job.options.depthLimit ≤ s.counts.deepest by omega))
  | succ levels ih =>
    intro e setting s hm hs
    rw [applyWithin]
    by_cases hf : job.options.remember = true → s.memory.find? (.of e setting) = none
    · cases hre : s.reenters e setting.location with
      | true =>
        obtain ⟨t, -, hcount, hon⟩ := on_remembering_of_reenters hf hre
        rw [hon]
        exact .inl (.inr (hcount hc))
      | false =>
        have htwins : Twins True e setting e setting := .refl e setting
        have hconcurs := hj.concurs hm job.options.counting job.options.tracing htwins
        have hring (c : Counts) : 0 < c.reentries → (Alarm.strict job.options.depthLimit).rung c := .inr
        have hgains := hconcurs.gains hc hring (.applyWithin levels) (fun hasked hs => by
          obtain ⟨rfl, rfl⟩ := hasked.2.2.identity trivial
          exact ih (hm.asked hasked) hs) (hs.deeper hc e.reference? setting.location)
        cases hw : (evaluate job (applyWithin job levels) e setting).on
          ((s.missed job).deeper job e.reference? setting.location) with
        | mk a t =>
        rw [hw] at hgains
        rw [on_remembering hf hre hw]
        refine hgains.imp id fun ⟨hfirm, h, hmeasures, hg⟩ => ?_
        rw [hfirm.awaiting]
        have hbare : job.Bare e setting a (h + 1) := by
          obtain ⟨n, hn⟩ := eventually_atTop.1 hmeasures
          refine eventually_atTop.2 ⟨n + 1, fun k hk => ?_⟩
          obtain ⟨k, rfl⟩ := Nat.exists_eq_add_of_le' (Nat.lt_of_lt_of_le n.succ_pos hk)
          exact .nested hc (hn k (by omega))
        exact ⟨hfirm, h + 1, hbare, hg.recording hc hj hm hf hfirm hbare⟩
    · obtain ⟨hremember, hsome⟩ := Classical.not_imp.1 hf
      obtain ⟨v, hv⟩ := Option.ne_none_iff_exists'.1 hsome
      obtain ⟨t, hnear, hon⟩ := on_remembering_of_some hremember hv
      rw [hon]
      obtain ⟨h, hbare⟩ := hs.knows.find hc hj hm hv
      exact .inr ⟨hbare.firm hc hj hm, h, hbare, .near hnear _ _⟩

end

end Packrat

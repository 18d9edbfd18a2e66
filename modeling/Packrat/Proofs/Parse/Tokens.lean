/-
Tokens in a row. A sequence or merge of literals matches a text that begins with them, one after
another, and what it gives holds what they spell. But a literal ends at a location, and the location
of a place within a line break of two characters is that of the place behind it: where a token ends
with the carriage return of such a break, its line feed is passed over. Texts are read as they are
spelled where no token does.
-/
import Packrat.Parse.Answer
import Packrat.Parse.Matcher
import Packrat.Proofs.Memory.Keeping
import Packrat.Proofs.Parse.Collecting
import Packrat.Proofs.Grammar.Modes
import Packrat.Proofs.Session.Logic

namespace Packrat

open Stance

/-! ## Spelling -/

/-- What is left of a text behind some tokens, read one after another, if it begins with them. A line
feed whose carriage return a token ends with goes with that token. -/
def readTokens : List (List Char) → List Char → Option (List Char)
  | [], rest => some rest
  | text :: texts, rest =>
    if text <+: rest then readTokens texts (Position.restBehind text (rest.drop text.length)) else none

/-- No token but the last ends within a line break. -/
def Unparted (texts : List (List Char)) (input : List Char) : Prop :=
  ∀ before text next after rest, texts = before ++ text :: next :: after → input = before.flatten ++ text ++ rest →
    ¬ PartsBreak text rest

/-- Tokens that do not end with a carriage return end within no line break. -/
theorem unparted_of_getLast? {texts : List (List Char)} {input : List Char}
    (h : ∀ text ∈ texts, text.getLast? ≠ some '\r') : Unparted texts input :=
  fun _ text _ _ _ htexts _ hb => h text (by simp [htexts]) hb.1

theorem Unparted.tail {text next : List Char} {texts : List (List Char)} {rest : List Char}
    (h : Unparted (text :: next :: texts) (text ++ rest)) : Unparted (next :: texts) rest := by
  intro before text' next' after rest' htexts hrest
  refine h (text :: before) text' next' after rest' (by rw [htexts]; rfl) ?_
  rw [hrest, List.flatten_cons, List.append_assoc, List.append_assoc, List.append_assoc]

/-- Where line breaks are not parted, tokens are read as they are spelled, and what is left is what
they do not spell, less a line feed that the last one parts from its break. -/
theorem readTokens_eq_some : ∀ {texts : List (List Char)} {input rest : List Char}, Unparted texts input →
    (readTokens texts input = some rest ↔ ∃ more, input = texts.flatten ++ more ∧
      rest = texts.getLast?.elim more (Position.restBehind · more))
  | [], input, rest, _ => by simp [readTokens, eq_comm]
  | [text], input, rest, _ => by
    simp only [readTokens, List.flatten_cons, List.flatten_nil, List.append_nil, List.getLast?_singleton, Option.elim_some]
    constructor
    · split
      · next h =>
        obtain ⟨more, rfl⟩ := h
        rw [List.drop_left]
        rintro ⟨⟩
        exact ⟨more, rfl, rfl⟩
      · nofun
    · rintro ⟨more, rfl, rfl⟩
      rw [if_pos (List.prefix_append _ _), List.drop_left]
  | text :: next :: texts, input, rest, h => by
    have htail {more : List Char} (hinput : input = text ++ more) :
        readTokens (text :: next :: texts) input = readTokens (next :: texts) more := by
      have hwhole : ¬ PartsBreak text more := h [] text next texts more rfl (by simpa using hinput)
      rw [readTokens, hinput, if_pos (List.prefix_append _ _), List.drop_left, Position.restBehind_of_not_partsBreak hwhole]
    constructor
    · intro hread
      obtain ⟨more, hinput⟩ : text <+: input := by
        refine Decidable.byContradiction fun hn => ?_
        rw [readTokens, if_neg hn] at hread
        cases hread
      rw [htail hinput.symm, readTokens_eq_some (hinput ▸ h).tail] at hread
      obtain ⟨last, hmore, hrest⟩ := hread
      exact ⟨last, by rw [← hinput, hmore, ← List.append_assoc]; rfl, hrest⟩
    · rintro ⟨last, hinput, hrest⟩
      rw [List.flatten_cons, List.append_assoc] at hinput
      rw [htail hinput, readTokens_eq_some (hinput ▸ h).tail]
      exact ⟨last, rfl, hrest⟩

/-! ## Verdicts -/

/-- The sequence of some literals, or their merge. -/
def Expr.tokens (flatten : Bool) (texts : List (List Char)) : Expr :=
  if flatten then .merge (texts.map .literal) else .sequence (texts.map .literal)

/-- The verdict on tokens at the beginning of the input: they match if they can be read there, and
the result holds what was read. -/
def Verdict.Spells (texts : List (List Char)) (input : List Char) : Verdict → Prop
  | .matched t => ∃ rest, readTokens texts input = some rest ∧ input = t.extent.text ++ rest
  | .failed _ => readTokens texts input = none
  | .silent _ | .omitted _ => False

/-- What is remembered is right: of a literal, the verdict on it, and of all else, that on the tokens. -/
def Job.Recalls (job : Job) (texts : List (List Char)) (q : Question) (v : Verdict) : Prop :=
  match q.expr with
  | .literal text => ∀ p : Position, p.Sits job.input → p.location = q.location →
    v = literalVerdict text (p.rest job.input) p.location
  | _ => v.Spells texts job.input

/-- The stance of a parse that recalls what is right. -/
def Job.recall (job : Job) (texts : List (List Char)) (m : Mark) (depth : Nat) : Stance :=
  ⟨job, .none, Memory.Keeps (job.Recalls texts), m, depth⟩

/-- The verdict on every literal at a position of the text is what it should be. -/
def Job.ReadsLiterals (job : Job) (texts : List (List Char)) (m : Mark) (depth : Nat) (apply : Applier) : Prop :=
  ∀ text (setting : Setting), setting.position.Sits job.input →
    (job.recall texts m depth).Yields True (apply (.literal text) setting)
      (· = .settled (literalVerdict text (setting.rest job.input) setting.location))

section

variable {job : Job} {texts : List (List Char)} {m : Mark} {depth : Nat} {setting : Setting}

theorem readsLiterals (levels : Nat) : job.ReadsLiterals texts m depth (applyWithin job (levels + 1)) := by
  intro text setting hp
  refine .remembering (Q := (· = .settled (literalVerdict text (setting.rest job.input) setting.location)))
    (fun _ _ mem v hmem hv => ?_) ?_ (.pure fun _ => rfl) (fun _ v mem hv hmem => ?_) fun _ a ha => by rw [ha]; rfl
  · obtain ⟨⟨e, location, skipping⟩, hq, hlocation, hsame, -⟩ := hmem.find hv
    have he : (.literal text : Expr) = e := Expr.eq_of_same (.intro rfl nofun) hsame
    subst he
    exact congrArg Attempt.settled (hq _ hp hlocation.symm)
  · refine .given (fun _ => id) fun ⟨_, rule, he, _⟩ => ?_
    cases he
  · refine hmem.insert fun p hp' hlocation => ?_
    obtain rfl : p = setting.position := hp'.ext hp hlocation
    exact Attempt.settled.inj hv

/-! ## Runs -/

/-- A run of literals that has still some to read. What it has read so far goes from where it began
up to its cursor. -/
structure Run.Spelling (job : Job) (origin : Position) (todo : List (List Char)) (run : Run) : Prop where
  todo : run.parts.drop run.done = todo.map .literal
  sits : run.collected.cursor.Sits job.input
  forward : origin.location ≤ run.collected.cursor.location
  start : run.collected.start = origin
  idle : run.collected.begun = false → run.collected.cursor = origin
  stop : run.collected.stop = run.collected.cursor
  silence : run.silence = none
  growing : run.growing = false
  off : job.skipper? run.setting.skipping = none

namespace Run.Spelling

variable {apply : Applier} {run : Run} {origin : Position} {text more : List Char} {todo : List (List Char)}

theorem new {flatten : Bool} (hp : setting.position.Sits job.input) (hoff : job.skipper? setting.skipping = none) :
    (Run.new (texts.map .literal) flatten setting 0).Spelling job setting.position texts where
  todo := rfl
  sits := hp
  forward := Location.le_refl _
  start := rfl
  idle _ := rfl
  stop := rfl
  silence := rfl
  growing := rfl
  off := hoff

theorem current (h : run.Spelling job origin (text :: todo)) : run.parts[run.done]? = some (.literal text) := by
  have := h.todo
  rw [← List.head?_drop, this]
  rfl

theorem read (h : run.Spelling job origin (text :: todo)) (hr : run.collected.cursor.rest job.input = text ++ more)
    {t : Tree} (ht : t = .text (.own ⟨run.collected.cursor.location, run.collected.cursor.location.after text, text⟩) text) :
    (run.next (run.collect job.input t) none).Spelling job origin todo ∧
      (run.collect job.input t).cursor.rest job.input = Position.restBehind text more := by
  have hcollect : run.collect job.input t = run.collected.add job.input t := by
    subst ht
    unfold Run.collect
    split
    · next heq => cases heq
    · rfl
  obtain ⟨hsits, hrest⟩ := h.sits.moveTo_after hr
  have hcursor : (run.collect job.input t).cursor =
      run.collected.cursor.moveTo job.input (run.collected.cursor.location.after text) := by
    rw [hcollect, ht]
    rfl
  refine ⟨{
    todo := ?_, sits := hcursor ▸ hsits, forward := Location.le_trans h.forward (Run.le_cursor_collect t), start := ?_,
    idle := ?_, stop := Run.stop_collect h.stop t, silence := rfl, growing := h.growing, off := h.off }, hcursor ▸ hrest⟩
  · show run.parts.drop (run.done + 1) = _
    rw [← List.tail_drop, h.todo]
    rfl
  · show (run.collect job.input t).start = origin
    rw [hcollect, ht]
    show (if run.collected.begun then run.collected.start else
      run.collected.cursor.moveTo job.input run.collected.cursor.location) = origin
    split
    · exact h.start
    · next hb =>
      rw [Position.moveTo_of_le (Location.le_refl _)]
      exact h.idle (by simpa using hb)
  · intro hb
    have hbegun : (run.collect job.input t).begun = false := hb
    rw [hcollect] at hbegun
    cases hbegun

/-- The tokens that are left are read in turn. -/
theorem drive_yields (happly : job.ReadsLiterals texts m depth apply) :
    ∀ {todo : List (List Char)} {fuel : Nat} {run : Run}, run.Spelling job origin todo → todo.length < fuel →
    (job.recall texts m depth).Yields True (run.drive job apply fuel) fun
      | .ok last => last.Spelling job origin [] ∧
        readTokens todo (run.collected.cursor.rest job.input) = some (last.collected.cursor.rest job.input)
      | .error a => readTokens todo (run.collected.cursor.rest job.input) = none ∧ ∃ f, a = .settled (.failed f)
  | _, 0, _, _, hfuel => absurd hfuel (Nat.not_lt_zero _)
  | [], fuel + 1, run, h, _ => by
    have hdone : run.parts[run.done]? = none := by
      rw [← List.head?_drop, h.todo]
      rfl
    unfold Run.drive
    rw [hdone]
    exact .pure fun _ => ⟨h, rfl⟩
  | text :: todo, fuel + 1, run, h, hfuel => by
    unfold Run.drive
    rw [h.current]
    refine .next_get (fun _ => id) fun s _ => .ite (fun hre => ?_) fun _ => ?_
    · simp [Session.reenters] at hre
    · refine .next (fun _ => id) (happly text run.here h.sits) fun a ha => ?_
      subst ha
      unfold literalVerdict
      split
      · next stop hread =>
        obtain ⟨⟨more, hr⟩, hstop⟩ := (readLiteral_eq_ok _ _ _ _ _).1 hread
        have hr : run.collected.cursor.rest job.input = text ++ more := hr.symm
        obtain ⟨hnext, hrest⟩ := h.read hr (congrArg (fun stop => Tree.text (.own ⟨run.here.location, stop, text⟩) text) hstop)
        have hgoes : readTokens (text :: todo) (run.collected.cursor.rest job.input) =
            readTokens todo (Position.restBehind text more) := by
          rw [readTokens, hr, if_pos (List.prefix_append _ _), List.drop_left]
        rw [hgoes, ← hrest]
        unfold Run.absorb
        rw [pure_bind]
        exact drive_yields happly hnext (Nat.lt_of_succ_lt_succ hfuel)
      · next failure hread =>
        have hno : ¬ text <+: run.collected.cursor.rest job.input := fun hbegins => by
          have hok := (readLiteral_eq_ok text text (run.here.rest job.input) (.start run.here.location) _).2 ⟨hbegins, rfl⟩
          rw [hread] at hok
          cases hok
        unfold Run.absorb skipBetween
        simp only [h.off, pure_bind]
        exact .pure fun _ => ⟨if_neg hno, failure, rfl⟩

/-- What comes of tokens that are tried where the text begins. -/
theorem finish_yields (happly : job.ReadsLiterals texts m depth apply) {flatten : Bool}
    (hp : setting.position = .origin) (hoff : job.skipper? setting.skipping = none) :
    (job.recall texts m depth).Yields True ((Run.new (texts.map .literal) flatten setting 0).finish job apply) fun a =>
      ∃ v, a = .settled v ∧ v.Spells texts job.input := by
  have hnew : (Run.new (texts.map .literal) flatten setting 0).Spelling job setting.position texts :=
    new (hp ▸ Position.sits_origin) hoff
  have hfuel : texts.length < (Run.new (texts.map .literal) flatten setting 0).fuel job := by
    have hlength : (Run.new (texts.map .literal) flatten setting 0).parts.length = texts.length := List.length_map _
    unfold Run.fuel
    omega
  refine .next (fun _ => id) (drive_yields happly hnew hfuel) fun r hr => ?_
  have hrest : (Run.new (texts.map .literal) flatten setting 0).collected.cursor.rest job.input = job.input := by
    show setting.position.rest job.input = _
    rw [hp]
    rfl
  rw [hrest] at hr
  cases r with
  | error a =>
    obtain ⟨hread, f, rfl⟩ := hr
    exact .pure fun _ => ⟨_, rfl, hread⟩
  | ok last =>
    obtain ⟨hlast, hread⟩ := hr
    unfold Run.complete
    simp only [hlast.growing, Bool.false_eq_true, if_false]
    refine .pure fun _ => ⟨_, rfl, ?_⟩
    unfold Run.conclude
    simp only [hlast.silence]
    refine ⟨_, hread, ?_⟩
    have hstart : last.collected.start = .origin := hlast.start.trans hp
    have htext := (Position.sits_origin.text_append hlast.sits (Nat.zero_le _)).1
    rw [Accumulator.extent_tree]
    show job.input = Position.text job.input last.collected.start last.collected.stop ++ _
    rw [hstart, hlast.stop]
    exact htext

end Run.Spelling

/-! ## Parses -/

/-- An expression by itself, or a rule with it for a body and without a production. -/
inductive Grammar.Stands (g : Grammar) (e : Expr) : Expr → Prop
  | itself : g.Stands e e
  | rule {name : String} : g.rule? name = some e → g.production? name = none → g.Stands e (.rule name)

theorem Expr.throughout_tokens {flatten : Bool} : (tokens flatten texts).Throughout (·.fallback? = none) := by
  have hliterals : ∀ part ∈ texts.map literal, part.Throughout (·.fallback? = none) := fun part hm => by
    obtain ⟨text, -, rfl⟩ := List.mem_map.1 hm
    exact .intro rfl nofun
  unfold tokens
  split <;> exact .intro rfl hliterals

/-- What is right of the tokens may be found for them, and remembered. -/
theorem recalled {e : Expr} {work : Applier} (ht : e.Throughout (·.fallback? = none)) (hl : ∀ text, e ≠ .literal text)
    (hback : ∀ rule, e = .rule rule → m ≠ some (rule, setting.location))
    (hw : (job.recall texts (m.inside e.reference? setting.location) (depth + 1)).Yields True (work e setting) fun a =>
      ∃ v, a = .settled v ∧ v.Spells texts job.input) :
    (job.recall texts m depth).Yields True (remembering job work e setting) fun a =>
      ∃ v, a = .settled v ∧ v.Spells texts job.input := by
  have hrecalls {location : Location} {skipping : SkipMode} {v : Verdict} :
      job.Recalls texts ⟨e, location, skipping⟩ v ↔ v.Spells texts job.input := by
    unfold Job.Recalls
    split
    · next text he => exact absurd he (hl text)
    · rfl
  refine .remembering (Q := fun a => ∃ v, a = .settled v ∧ v.Spells texts job.input) (fun _ _ mem v hmem hv => ?_) ?_
    (hw.guard fun _ => trivial) (fun _ v mem hv hmem => ?_) fun _ a ha => ?_
  · obtain ⟨⟨e', location, skipping⟩, hq, -, hsame, -⟩ := hmem.find hv
    have he : e = e' := Expr.eq_of_same ht hsame
    subst he
    exact ⟨v, rfl, hrecalls.1 hq⟩
  · refine .given (fun _ => id) fun ⟨_, rule, he, hm⟩ => absurd hm (hback rule he)
  · obtain ⟨w, hw, hspells⟩ := hv
    exact hmem.insert (hrecalls.2 (Attempt.settled.inj hw ▸ hspells))
  · obtain ⟨v, rfl, hv⟩ := ha
    exact ⟨v, rfl, hv⟩

theorem tokens_yields {levels : Nat} {flatten : Bool} (hp : setting.position = .origin)
    (hoff : job.skipper? setting.skipping = none) :
    (job.recall texts m depth).Yields True (applyWithin job (levels + 2) (.tokens flatten texts) setting) fun a =>
      ∃ v, a = .settled v ∧ v.Spells texts job.input := by
  refine recalled Expr.throughout_tokens (fun text he => ?_) (fun rule he => ?_) ?_
  · cases flatten <;> cases he
  · cases flatten <;> cases he
  · cases flatten with
    | false => exact Run.Spelling.finish_yields (readsLiterals levels) hp hoff
    | true => exact Run.Spelling.finish_yields (readsLiterals levels) hp hoff

theorem root_yields {levels : Nat} {flatten : Bool} {root : Expr} (hroot : job.grammar.Stands (.tokens flatten texts) root)
    (hskip : ¬ job.grammar.Skipping) :
    (job.recall texts none 0).Yields True (applyWithin job (levels + 3) root .start) fun a =>
      ∃ v, a = .settled v ∧ v.Spells texts job.input := by
  have hstandard : job.grammar.skipper = none := Classical.byContradiction fun hn => hskip (.inl hn)
  cases hroot with
  | itself => exact tokens_yields rfl hstandard
  | @rule name hbody hproduction =>
    refine recalled (.intro rfl nofun) (fun _ => nofun) (fun _ _ => nofun) ?_
    show (job.recall texts _ _).Yields True (tryRule job (applyWithin job (levels + 2)) name .start) _
    unfold tryRule
    rw [hbody]
    have hoff : job.skipper? (job.skippingIn name .standard) = none :=
      Job.skippingIn_eq_none (fun rule skipper ho => hskip (.inr ⟨rule, skipper, ho⟩)) hstandard
    refine .bind .emit fun _ => .bind (.count (fun _ => Nat.le_refl _) fun _ => Nat.le_refl _) fun _ => ?_
    refine .bind ((tokens_yields rfl hoff).guard fun _ => trivial)
      fun a => .given (fun _ => id) fun ⟨_, v, ha, hv⟩ => .bind .emit fun _ => .pure fun _ => ?_
    subst ha
    cases v with
    | matched t =>
      have hproduce : job.grammar.produce name t = .ok t.widened := by
        unfold Grammar.produce
        rw [hproduction]
      refine ⟨.matched t.widened, ?_, ?_⟩
      · unfold wrapAttempt
        simp only [hproduce]
      · obtain ⟨rest, hread, hinput⟩ := hv
        exact ⟨rest, hread, by rwa [Tree.extent_widened]⟩
    | failed failure => exact ⟨_, rfl, hv⟩
    | silent why => exact hv.elim
    | omitted span => exact hv.elim

/-- The verdict on tokens decides what comes of a parse. -/
theorem run_spells {flatten : Bool} {root : Expr} (hroot : job.grammar.Stands (.tokens flatten texts) root)
    (hskip : ¬ job.grammar.Skipping) (hdepth : 3 ≤ job.options.depthLimit) :
    ∃ v, (job.run root).result = Job.resultOf root (.settled v) ∧ v.Spells texts job.input := by
  obtain ⟨levels, hlevels⟩ : ∃ levels, job.options.depthLimit = levels + 3 := ⟨_, (Nat.sub_add_cancel hdepth).symm⟩
  have hfits : (job.recall texts none 0).Fits .start := ⟨Memory.keeps_empty, rfl, rfl, fun _ => Nat.le_refl _⟩
  rcases (root_yields hroot hskip .start).2 trivial hfits with hrung | ⟨⟨v, hv, hspells⟩, -⟩
  · exact hrung.elim
  · refine ⟨v, ?_, hspells⟩
    show Job.resultOf root ((applyWithin job job.options.depthLimit root .start).on .start).1 = _
    rw [hlevels, hv]

/-- Tokens are read as they are spelled. Where nothing is skipped and no token but the last ends
within a line break, a sequence or merge of them matches the texts that begin with what they spell
together, and if the last one does not end within a line break either, that is what the result holds. -/
theorem Job.run_tokens {flatten : Bool} {root : Expr} (hroot : job.grammar.Stands (.tokens flatten texts) root)
    (hskip : ¬ job.grammar.Skipping) (hdepth : 3 ≤ job.options.depthLimit) (hparts : Unparted texts job.input) :
    ((∃ t, (job.run root).result = .ok t) ↔ texts.flatten <+: job.input) ∧
      ∀ t, (job.run root).result = .ok t →
        (∀ last rest, texts.getLast? = some last → job.input = texts.flatten ++ rest → ¬ PartsBreak last rest) →
        t.extent.text = texts.flatten := by
  obtain ⟨v, hresult, hv⟩ := run_spells hroot hskip hdepth
  rw [hresult]
  cases v with
  | matched u =>
    obtain ⟨rest, hread, hinput⟩ := hv
    obtain ⟨more, hmore, hrest⟩ := (readTokens_eq_some hparts).1 hread
    refine ⟨⟨fun _ => ⟨more, hmore.symm⟩, fun _ => ⟨u, rfl⟩⟩, ?_⟩
    rintro _ ⟨⟩ hlast
    have hwhole : rest = more := by
      rw [hrest]
      cases hl : texts.getLast? with
      | none => rfl
      | some last => exact Position.restBehind_of_not_partsBreak (hlast last more hl hmore)
    rw [hwhole, hmore] at hinput
    exact (List.append_cancel_right hinput).symm
  | failed failure =>
    refine ⟨⟨nofun, ?_⟩, nofun⟩
    rintro ⟨more, hmore⟩
    have hread := (readTokens_eq_some hparts).2 ⟨more, hmore.symm, rfl⟩
    rw [hv] at hread
    cases hread
  | silent why => exact hv.elim
  | omitted span => exact hv.elim

end

namespace Grammar

/-- The rule of the given tokens in a row. -/
def ofTokens (texts : List (List Char)) : Grammar where
  start := "tokens"
  rules := [("tokens", .tokens false texts)]
  skipper := none
  overrides := []
  productions := []
  kinds := .empty

theorem stands_ofTokens (texts : List (List Char)) : (ofTokens texts).Stands (.tokens false texts) (.rule "tokens") :=
  .rule rfl rfl

theorem not_skipping_ofTokens (texts : List (List Char)) : ¬ (ofTokens texts).Skipping := by
  rintro (h | ⟨_, _, h⟩)
  · exact h rfl
  · cases h

/-- Two words on lines of their own, where the first token has the line break. -/
def lines : Job :=
  .new (ofTokens ["a\r\n".toList, ['b']]) (.rule "tokens") .standard .nothing "a\r\nb\r\n".toList

theorem run_lines : ∃ t, (lines.run (.rule "tokens")).result = .ok t ∧ t.extent.text = "a\r\nb".toList := by
  have h := @Job.run_tokens lines _ _ _ (stands_ofTokens _) (not_skipping_ofTokens _) (by decide)
    (unparted_of_getLast? (by decide))
  obtain ⟨t, ht⟩ := h.1.2 (by decide)
  exact ⟨t, ht, h.2 t ht fun last rest hlast _ => not_partsBreak_of_not_mem (by cases hlast; decide)⟩

/-- A carriage return and a line feed, as two tokens. -/
def parted : Job :=
  .new (ofTokens [['\r'], ['\n']]) (.rule "tokens") .standard .nothing ['\r', '\n']

/-- Two tokens before a line feed that the second one parts from its break. -/
def overread : Job :=
  .new (ofTokens [['a'], ['b', '\r']]) (.rule "tokens") .standard .nothing "ab\r\n".toList

/-- Within a line break no token is read, and a line feed that no token spells is held by the result. -/
theorem run_parted : ([['\r'], ['\n']].flatten <+: parted.input ∧
      ¬ ∃ t, (parted.run (.rule "tokens")).result = .ok t) ∧
    ∃ t, (overread.run (.rule "tokens")).result = .ok t ∧ t.extent.text ≠ [['a'], ['b', '\r']].flatten := by
  refine ⟨⟨by decide, fun ⟨t, ht⟩ => ?_⟩, ?_⟩
  · have hfails : (parted.run (.rule "tokens")).result.isOk = false := by decide +kernel
    rw [ht] at hfails
    cases hfails
  · have htext : (overread.run (.rule "tokens")).result.toOption.map (fun t => t.extent.text) = some "ab\r\n".toList := by
      decide +kernel
    cases h : (overread.run (.rule "tokens")).result with
    | error refusal =>
      rw [h] at htext
      cases htext
    | ok t =>
      rw [h] at htext
      have htext : t.extent.text = "ab\r\n".toList := Option.some.inj htext
      exact ⟨t, rfl, by rw [htext]; decide⟩

end Grammar

end Packrat

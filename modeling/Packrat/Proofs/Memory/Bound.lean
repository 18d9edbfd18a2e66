/-
How much is worked out. As long as no rule comes back to itself, the nesting stays within its limit and
the grammar turns out to be well-formed, every question that memory could not answer is answered once and
from then on by memory. So there are no more of them than questions that can be asked of the text.
-/
import Packrat.Proofs.Memory.Gain

namespace Packrat

/-- With a memory nothing is worked out twice: each miss is remembered in the end, and there are no more of
them than questions about the expressions, the places of the text and the ways of skipping. -/
theorem Grammar.misses_bounded {g : Grammar} (hg : g.Textual) (ha : ∀ p, g.Has (.pattern p) → p.Anchored g.engine)
    {options : Options} (hremember : options.remember = true) {externals : Externals} {input : List Char}
    (hd : (g.counts options externals input).deepest < options.depthLimit) (hr : (g.counts options externals input).reentries = 0)
    (hb : ∀ error, (g.parse options externals input).result ≠ .error (.grammar error)) :
    (g.parse options externals input).journal.getLast? = some (.remembered (g.counts options externals input).misses) ∧
      (g.counts options externals input).misses ≤
        g.exprs.eraseDups.length * (input.length + 1) * (1 + g.overrides.length) := by
  let job := Job.new g (.rule g.start) options externals input
  let counted := job.observed true options.tracing
  have hj : counted.Bound := ⟨hg, ha⟩
  have hsound : Session.start.Sound counted options.depthLimit := ⟨Nat.zero_add _, Nat.le_refl 0, .empty⟩
  have hagree : Eval.Agree (apply job (.rule g.start) .start) (apply counted (.rule g.start) .start) := .applyWithin _ _ _
  have halike := hagree .start .start (.refl .start)
  have hcounts : g.counts options externals input = ((apply counted (.rule g.start) .start).on .start).2.counts := rfl
  have hstart : counted.Meets (.rule g.start) .start := ⟨.refl, Position.sits_origin⟩
  rcases applyWithin_gains rfl hj options.depthLimit hstart hsound with hrung | ⟨-, h, -, hgains⟩
  · rcases hrung with hdeep | hre
    · exact absurd hd (Nat.not_lt.2 hdeep)
    · exact absurd hr (Nat.ne_of_gt hre)
  have hwell : ∀ error, ((apply counted (.rule g.start) .start).on .start).1 ≠ .broken error := by
    intro error heq
    refine hb error ?_
    show Job.resultOf _ ((apply job (.rule g.start) .start).on .start).1 = _
    have hsame : ((apply job (.rule g.start) .start).on .start).1 = .broken error := halike.1.trans heq
    rw [hsame]
    rfl
  -- at the start there is nothing in memory and nothing was missed
  have hbalance := hgains.balance hwell hremember
  have hmisses : (g.counts options externals input).misses =
      ((apply counted (.rule g.start) .start).on .start).2.memory.size := by
    rw [hcounts]
    exact hbalance.trans (Nat.zero_add _)
  refine ⟨?_, ?_⟩
  · show (_ ++ [Note.finished _ _, .remembered ((apply job (.rule g.start) .start).on .start).2.memory.size]).getLast? = _
    have hsame : ((apply job (.rule g.start) .start).on .start).2.memory =
        ((apply counted (.rule g.start) .start).on .start).2.memory := halike.2.memory
    rw [List.getLast?_append, hsame, hmisses]
    rfl
  · rw [hmisses]
    exact Nat.le_trans (hgains.knows hsound.knows).size_le (Nat.le_of_eq counted.length_questions)

namespace Grammar

/-- Any number of words on lines, in which the words are told from numbers by looking ahead. -/
def ofLines : Grammar where
  start := "lines"
  rules := [
    ("lines", .repetition (.sequence [.choice [.rule "number", .rule "word"], .literal ['\n']]) ⟨0, none⟩ none),
    ("number", .sequence [.notAhead (.rule "word"), .repetition (.literal ['1']) ⟨1, none⟩ none]),
    ("word", .repetition (.literal ['a']) ⟨1, none⟩ none)]
  skipper := some (.literal [' '])
  overrides := [("word", none)]
  productions := []
  kinds := .empty

theorem misses_bounded_lines : (ofLines.parse .standard .nothing "aa \n11\n".toList).result.isOk = true ∧
    (ofLines.parse .standard .nothing "aa \n11\n".toList).journal.getLast? =
      some (.remembered (ofLines.counts .standard .nothing "aa \n11\n".toList).misses) ∧
    (ofLines.counts .standard .nothing "aa \n11\n".toList).misses ≤ 14 * 8 * 2 := by
  have hok : (ofLines.parse .standard .nothing "aa \n11\n".toList).result.isOk = true := by decide +kernel
  have hexprs : ofLines.exprs.eraseDups.length = 14 := by decide +kernel
  have hwell (error : GrammarError) :
      (ofLines.parse .standard .nothing "aa \n11\n".toList).result ≠ .error (.grammar error) := by
    intro he
    rw [he] at hok
    cases hok
  obtain ⟨hlast, hbound⟩ := misses_bounded (textual_of_check (by decide +kernel)) (anchored_of_check (by decide +kernel)) rfl
    (by decide +kernel) (by decide +kernel) hwell
  rw [hexprs] at hbound
  exact ⟨hok, hlast, hbound⟩

/-! ## Patterns that match further on -/

/-- This closes the parenthesis that keeps a pattern to the beginning of what is left. -/
def strayVowel : Pattern := (Pattern.ofSource? ['x', ')', '|', '(', '?', ':', 'a']).get (by decide +kernel)

/-- Any number of line breaks, each behind a look at all the vowels to come. -/
def vowelsAhead : Expr :=
  .repetition (.sequence [.ahead (.repetition (.pattern strayVowel) ⟨0, none⟩ none), .literal ['\n']]) ⟨0, none⟩ none

/-- The definition of a grammar for these. -/
def lookingForVowels : List Definition := [.rule "s" vowelsAhead, .start "s"]

/-- The grammar that this gives. -/
def ofVowels : Grammar where
  start := "s"
  rules := [("s", vowelsAhead)]
  skipper := none
  overrides := []
  productions := []
  kinds := .empty

/-- On each line break the pattern takes the vowel for a character of that line, and so on, so that the
same text is read at more and more locations. -/
theorem misses_unbounded : ∃ g, ofDefinitions lookingForVowels = .ok g ∧ g.Textual ∧ ∃ answer,
    answer = g.parse .standard .nothing ['\n', '\n', '\n', '\n', '\n', 'a'] ∧ answer.result.isOk = true ∧
      answer.counts.reentries = 0 ∧ answer.counts.deepest < Options.standard.depthLimit ∧
        g.exprs.eraseDups.length * (6 + 1) * (1 + g.overrides.length) < answer.counts.misses := by
  exact ⟨ofVowels, rfl, textual_of_check (by decide +kernel), _, rfl, by decide +kernel, by decide +kernel, by decide +kernel,
    by decide +kernel⟩

end Grammar

end Packrat

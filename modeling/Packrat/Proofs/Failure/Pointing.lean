/-
Failures shown in their source. The place where a parse failed is found by the parser as it moves along,
and the line to show it on by splitting the source. They agree: every failure of a parse lies on a line of
the source, so that the line is there to be shown and the caret stands below the very column.
-/
import Mathlib.Data.List.Infix
import Packrat.Grammar.Definition
import Packrat.Proofs.Contract.Fidelity
import Packrat.Proofs.Failure.Window
import Packrat.Proofs.Text.Rows

namespace Packrat

/-! ## Gutters -/

@[simp] theorem length_blanks (count : Nat) : (blanks count).length = count := by
  simp [blanks]

/-- A greater number has at least as many digits. -/
theorem length_toString_mono {m n : Nat} (h : m ≤ n) : (toString m).length ≤ (toString n).length := by
  rw [Nat.toString_eq_repr, Nat.toString_eq_repr, Nat.length_repr_le_iff Nat.length_repr_pos]
  exact Nat.lt_of_le_of_lt h ((Nat.length_repr_le_iff Nat.length_repr_pos).1 (Nat.le_refl _))

/-- A number fills a gutter that is wide enough for it. -/
theorem length_padNumber {width n : Nat} (h : (toString n).length ≤ width) : (padNumber width n).length = width := by
  rw [padNumber, String.length_append, length_blanks]
  omega

/-- The text has a line under its number in the gutter, and right below it a caret behind so many columns. -/
def Points (shown : String) (number : Nat) (line : List Char) (column : Nat) : Prop :=
  ∃ above below width, shown = above ++ "\n" ++ padNumber width (number + 1) ++ " | " ++ String.ofList line ++
      "\n" ++ blanks width ++ " | " ++ blanks column ++ "^" ++ below ∧
    (padNumber width (number + 1)).length = width ∧ (below = "" ∨ ∃ more, below = "\n" ++ more)

/-! ## Lines around a line -/

/-- A line of the source is shown with lines of lower numbers before it and of higher numbers behind it. -/
theorem linesAround_split {source line : List Char} {number : Nat} (hl : (splitLines source)[number]? = some line)
    (context : Nat) : ∃ before after, linesAround source number context = some (before ++ (number, line) :: after) ∧
      (∀ other ∈ before, other.1 < number) ∧ ∀ other ∈ after, number < other.1 := by
  obtain ⟨hlt, -⟩ := List.getElem?_eq_some_iff.1 hl
  obtain ⟨shown, hshown⟩ := Option.ne_none_iff_exists'.1 (mt linesAround_eq_none_iff.1 (Nat.not_le.2 hlt))
  obtain ⟨before, after, rfl⟩ := List.append_of_mem (mem_linesAround_self hshown hl)
  obtain ⟨first, count, hnumbers⟩ := linesAround_consecutive hshown
  have hsorted : (before.map Prod.fst ++ number :: after.map Prod.fst).Pairwise (· < ·) := by
    rw [← List.map_cons (f := Prod.fst) (a := (number, line)), ← List.map_append, hnumbers]
    exact List.pairwise_lt_range'
  obtain ⟨-, hafter, hbefore⟩ := List.pairwise_append.1 hsorted
  refine ⟨before, after, hshown, fun other ho => ?_, fun other ho => ?_⟩
  · exact hbefore other.1 (List.mem_map_of_mem ho) number List.mem_cons_self
  · exact (List.pairwise_cons.1 hafter).1 other.1 (List.mem_map_of_mem ho)

namespace Failure

variable {f : Failure} {line : List Char}

/-- A failure on a line of the source is shown there. -/
theorem points_showInContext {source : List Char} (hl : (splitLines source)[f.stop.line]? = some line)
    (hcolumn : f.stop.column ≤ line.length) (context : Nat) :
    Points (f.showInContext source context) f.stop.line line f.stop.column := by
  obtain ⟨before, after, hshown, -, hafter⟩ := linesAround_split hl context
  obtain ⟨last, hlast, hle⟩ : ∃ last, (before ++ (f.stop.line, line) :: after).getLast? = some last ∧
      f.stop.line ≤ last.1 := by
    have hne := List.cons_ne_nil (f.stop.line, line) after
    refine ⟨((f.stop.line, line) :: after).getLast hne, ?_, ?_⟩
    · rw [List.getLast?_append, List.getLast?_eq_some_getLast hne]
      rfl
    · rcases List.mem_cons.1 (List.getLast_mem hne) with h | h
      · exact Nat.le_of_eq (congrArg Prod.fst h).symm
      · exact Nat.le_of_lt (hafter _ h)
  have hfits := length_toString_mono (Nat.succ_le_succ hle)
  refine ⟨"error: " ++ f.message ++ "\n  --> " ++ f.stop.display ++ "\n" ++ blanks (toString (last.1 + 1)).length ++ " |" ++
      String.join (before.map fun shown => f.contextLine (toString (last.1 + 1)).length shown.1 shown.2),
    String.join (after.map fun shown => f.contextLine (toString (last.1 + 1)).length shown.1 shown.2),
    (toString (last.1 + 1)).length, ?_, length_padNumber hfits, ?_⟩
  · unfold showInContext showWith
    simp only [hshown, hlast, List.map_append, List.map_cons, String.join_append, String.join_cons, String.append_assoc]
    rw [contextLine, if_pos rfl, Nat.min_eq_left hcolumn]
    simp only [String.append_assoc]
  · cases after with
    | nil => exact .inl rfl
    | cons other others =>
      simp only [List.map_cons, String.join_cons, contextLine, String.append_assoc]
      exact .inr ⟨_, rfl⟩

/-- With machine words the same is shown, as far as the sum of the line numbers is one. -/
theorem showInWindow_of_lt {source : List Char} {context : Nat} (hc : f.stop.line + context < lineNumberRange) :
    f.showInWindow source context = .ok (f.showInContext source context) := by
  unfold showInWindow
  rw [windowAround_of_lt hc]
  rfl

end Failure

/-! ## Failures of parses -/

/-- Why the input does not match. -/
def Answer.failure? (answer : Answer) : Option Failure :=
  match answer.result with
  | .error (.mismatch failure) => some failure
  | _ => none

theorem Answer.failure?_eq_some {answer : Answer} {f : Failure} (h : answer.failure? = some f) :
    answer.result = .error (.mismatch f) := by
  unfold failure? at h
  split at h
  · next hresult => rw [hresult, Option.some.inj h]
  · cases h

namespace Grammar

/-- Where a parse fails is a place of the text, and shown in context the failure points to that very place on
its line. It can be shown with any number of lines around it for which the sum of the line numbers is a machine word. -/
theorem parse_points {g : Grammar} (hg : g.Textual) (ha : ∀ p, g.Has (.pattern p) → p.Anchored g.engine) {options : Options}
    {externals : Externals} {input : List Char} {f : Failure}
    (hf : (g.parse options externals input).result = .error (.mismatch f)) :
    ∃ before rest left right, input = before ++ rest ∧ f.stop = Location.origin.after before ∧ Row before rest left right ∧
      left.length = f.stop.column ∧ ∀ context, f.stop.line + context < lineNumberRange →
        ∃ shown, f.showInWindow input context = .ok shown ∧ Points shown f.stop.line (left ++ right) f.stop.column := by
  have hplace : Position.Place input f.stop := (Job.fidelity_lawful hg ha).mismatch Position.sits_origin hf
  obtain ⟨before, rest, left, right, hinput, hstop, hrow, hcolumn, hlisted⟩ := hplace.row
  refine ⟨before, rest, left, right, hinput, hstop, hrow, hcolumn, fun context hc => ?_⟩
  exact ⟨_, Failure.showInWindow_of_lt hc, Failure.points_showInContext hlisted (by simp [← hcolumn]) context⟩

/-- There is no item on the second of three lines. -/
theorem parse_points_items :
    let input := "\r\n  ?\r\nx".toList
    ∃ f, (ofItems.parse .standard .nothing input).result = .error (.mismatch f) ∧ f.stop = ⟨1, 2⟩ ∧
      ∃ before rest left right, input = before ++ rest ∧ f.stop = Location.origin.after before ∧
        Row before rest left right ∧ left.length = f.stop.column ∧ ∀ context, f.stop.line + context < lineNumberRange →
          ∃ shown, f.showInWindow input context = .ok shown ∧
            Points shown f.stop.line (left ++ right) f.stop.column := by
  intro input
  have hstop : (ofItems.parse .standard .nothing input).failure?.map Failure.stop = some ⟨1, 2⟩ := by
    decide +kernel
  obtain ⟨f, hf, hplace⟩ := Option.map_eq_some_iff.1 hstop
  have hresult := Answer.failure?_eq_some hf
  exact ⟨f, hresult, hplace, parse_points (textual_of_check (by decide +kernel)) (anchored_of_check (by decide +kernel)) hresult⟩

/-- A letter, which the pattern also finds further on, and another one. -/
def twoConsonants : List Definition := [.rule "s" (.sequence [.pattern strayLetter, .literal ['c']]), .start "s"]

/-- The grammar that this gives. -/
def ofTwoConsonants : Grammar where
  start := "s"
  rules := [("s", .sequence [.pattern strayLetter, .literal ['c']])]
  skipper := none
  overrides := []
  productions := []
  kinds := .empty

/-- The pattern takes a line break for the consonant, so the parse fails behind the first column of a line that
has none. -/
theorem parse_points_nowhere : ∃ g, ofDefinitions twoConsonants = .ok g ∧ g.Textual ∧
    ∃ f, (g.parse .standard .nothing ['\n', 'b']).result = .error (.mismatch f) ∧
      (∀ before rest, ['\n', 'b'] = before ++ rest → f.stop ≠ Location.origin.after before) ∧
      ¬ ∃ line, (splitLines ['\n', 'b'])[f.stop.line]? = some line ∧ f.stop.column ≤ line.length := by
  refine ⟨ofTwoConsonants, rfl, textual_of_check (by decide +kernel), ?_⟩
  have hstop : (ofTwoConsonants.parse .standard .nothing ['\n', 'b']).failure?.map Failure.stop =
      some ⟨0, 1⟩ := by
    decide +kernel
  obtain ⟨f, hf, hplace⟩ := Option.map_eq_some_iff.1 hstop
  refine ⟨f, Answer.failure?_eq_some hf, fun before rest hinput => ?_, ?_⟩
  · have hmem : before ∈ List.inits ['\n', 'b'] := (List.mem_inits _ _).2 ⟨rest, hinput.symm⟩
    have hnone : ∀ before ∈ List.inits ['\n', 'b'], (⟨0, 1⟩ : Location) ≠ Location.origin.after before := by decide
    rw [hplace]
    exact hnone before hmem
  · rintro ⟨line, hline, hle⟩
    rw [hplace] at hline hle
    cases hline
    exact absurd hle (by decide)

end Grammar

end Packrat

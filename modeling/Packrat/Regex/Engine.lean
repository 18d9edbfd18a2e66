/-
Engines: ways to match patterns. A parse asks its engine for nothing but the groups of a match, and what
is matched is taken from the text. The engine that runs the programs of patterns is one of them.
-/
import Packrat.Regex.Pattern
import Packrat.Tree.Basic

namespace Packrat

/-- A way to match patterns. -/
structure Regex.Engine where
  /-- The groups of the match in a text, group 0 being the whole match. -/
  captures : Pattern → List Char → Option (List (Option (List Char)))
  /-- A match is no longer than the text. -/
  length_le : ∀ {p : Pattern} {text : List Char} {groups : List (Option (List Char))},
    captures p text = some groups → (Tree.matchedText groups).length ≤ text.length

namespace Regex

/-- Wherever a search finds a match, its groups are stretches of the text. -/
theorem Program.search_eq_some {p : Program} {text : List Char} {groups : List (Option (List Char))}
    (h : p.search text = some groups) : ∃ t, groups = (List.range p.groupCount).map (groupText text t) := by
  have hmatch : ∀ {before offset rest}, p.matchAt text before offset rest = some groups →
      ∃ t, groups = (List.range p.groupCount).map (groupText text t) := by
    intro before offset rest hm
    obtain ⟨t, -, rfl⟩ := Option.map_eq_some_iff.1 hm
    exact ⟨t, rfl⟩
  have hsearch : ∀ {rest before offset}, p.searchFrom text before offset rest = some groups →
      ∃ t, groups = (List.range p.groupCount).map (groupText text t) := by
    intro rest
    induction rest with
    | nil => exact fun hm => hmatch hm
    | cons c rest ih =>
      intro before offset hm
      rcases Option.or_eq_some_iff.1 hm with hm | ⟨-, hm⟩
      · exact hmatch hm
      · exact ih hm
  unfold search at h
  split at h
  · exact hmatch h
  · exact hsearch h

/-- A group is no longer than the text. -/
theorem Program.length_groupText {text group : List Char} {t : Thread} {index : Nat}
    (h : groupText text t index = some group) : group.length ≤ text.length := by
  simp only [groupText, Option.bind_eq_bind, Option.bind_eq_some_iff] at h
  obtain ⟨start, -, stop, -, hgroup⟩ := h
  cases hgroup
  simp only [List.length_take, List.length_drop]
  omega

/-- The engine that runs the programs of patterns. What it cannot read matches nowhere. -/
def Engine.builtin : Engine where
  captures p text := p.program?.bind (·.search text)
  length_le {p text groups} h := by
    obtain ⟨program, -, hsearch⟩ := Option.bind_eq_some_iff.1 h
    obtain ⟨t, rfl⟩ := program.search_eq_some hsearch
    unfold Tree.matchedText
    cases program.groupCount with
    | zero => simp
    | succ count =>
      rw [List.range_succ_eq_map]
      show ((Program.groupText text t 0).getD []).length ≤ text.length
      cases hgroup : Program.groupText text t 0 with
      | none => exact Nat.zero_le _
      | some group => exact Program.length_groupText hgroup

end Regex

end Packrat

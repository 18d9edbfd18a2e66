/-
Expressions that look at the input directly: literals, patterns and matchers from outside.
-/
import Packrat.Parse.Session
import Packrat.Text.Scan

namespace Packrat

/-- Reads what is left of a literal. A mismatch is located right after the last character that did
match. -/
def readLiteral (literal : List Char) : (wanted rest : List Char) → Scan → Except Failure Location
  | [], _, s => .ok s.location
  | wanted :: _, [], s => .error ⟨.endOfInput wanted literal, s.location⟩
  | wanted :: more, found :: rest, s =>
    if found = wanted then readLiteral literal more rest (s.step found)
    else .error ⟨.wrongCharacter found wanted literal, s.location⟩

/-- Reading a literal follows the text as far as it goes along. -/
theorem readLiteral_eq_ok (literal : List Char) : ∀ (wanted rest : List Char) (s : Scan) (stop : Location),
    readLiteral literal wanted rest s = .ok stop ↔ wanted <+: rest ∧ stop = (s.run wanted).location
  | [], rest, s, stop => by simp [readLiteral, eq_comm]
  | c :: wanted, [], s, stop => by simp [readLiteral]
  | c :: wanted, d :: rest, s, stop => by
    unfold readLiteral
    split
    · next h => rw [readLiteral_eq_ok literal wanted rest, h]; simp
    · next h => simp [Ne.symm h]

/-- The verdict on a literal. -/
def literalVerdict (literal rest : List Char) (location : Location) : Verdict :=
  match readLiteral literal literal rest (.start location) with
  | .ok stop => .matched (.text (.own ⟨location, stop, literal⟩) literal)
  | .error failure => .failed failure

/-- The verdict of an engine on a pattern at the beginning of the rest of the input. -/
def patternVerdict (engine : Regex.Engine) (pattern : Pattern) (rest : List Char) (location : Location) : Verdict :=
  match engine.captures pattern rest with
  | some groups =>
    let text := Tree.matchedText groups
    .matched (.found (.own ⟨location, location.after text, text⟩) groups)
  | none => .failed ⟨.noMatch rest pattern.source, location⟩

/-- The verdict of a matcher on the rest of the input. -/
def externalVerdict (matcher : Matcher) (rest : List Char) (location : Location) : Verdict :=
  match matcher rest location with
  | .ok tree => .matched tree
  | .error failure => .failed failure

end Packrat

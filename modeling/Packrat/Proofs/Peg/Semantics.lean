/-
The big-step semantics of parsing expression grammars: what an expression takes from the beginning
of a text, told by what is left of the text, or that it fails. Sequences take part after part,
choices commit to the first alternative that succeeds, repetitions are greedy within their bounds,
and predicates take nothing. A merge takes what a sequence of the same parts takes; how results are
put together is no concern of the semantics.
-/
import Packrat.Grammar.Basic

namespace Packrat

/-- The bounds that are left when one match is counted off. -/
def Bounds.less (b : Bounds) : Bounds := ⟨b.min - 1, b.max.map (· - 1)⟩

/-- An expression takes a beginning of a text and leaves the rest, or fails with none. -/
inductive Peg (g : Grammar) : Expr → List Char → Option (List Char) → Prop
  | literal {text input rest : List Char} : input = text ++ rest → Peg g (.literal text) input (some rest)
  | literal_fails {text input : List Char} : ¬ text <+: input → Peg g (.literal text) input none
  | pattern {p : Pattern} {input rest : List Char} {groups : List (Option (List Char))} :
    g.engine.captures p input = some groups → input = Tree.matchedText groups ++ rest → Peg g (.pattern p) input (some rest)
  | pattern_fails {p : Pattern} {input : List Char} : g.engine.captures p input = none → Peg g (.pattern p) input none
  | rule {name : String} {body : Expr} {input : List Char} {out : Option (List Char)} :
    g.rule? name = some body → Peg g body input out → Peg g (.rule name) input out
  | sequence_nil {input : List Char} : Peg g (.sequence []) input (some input)
  | sequence_cons {part : Expr} {parts : List Expr} {input middle : List Char} {out : Option (List Char)} :
    Peg g part input (some middle) → Peg g (.sequence parts) middle out → Peg g (.sequence (part :: parts)) input out
  | sequence_fails {part : Expr} {parts : List Expr} {input : List Char} :
    Peg g part input none → Peg g (.sequence (part :: parts)) input none
  | merge {parts : List Expr} {input : List Char} {out : Option (List Char)} :
    Peg g (.sequence parts) input out → Peg g (.merge parts) input out
  | choice_nil {input : List Char} : Peg g (.choice []) input none
  | choice_first {alternative : Expr} {others : List Expr} {input rest : List Char} :
    Peg g alternative input (some rest) → Peg g (.choice (alternative :: others)) input (some rest)
  | choice_next {alternative : Expr} {others : List Expr} {input : List Char} {out : Option (List Char)} :
    Peg g alternative input none → Peg g (.choice others) input out → Peg g (.choice (alternative :: others)) input out
  | repetition_more {body : Expr} {bounds : Bounds} {fallback : Option Tree} {input middle : List Char}
      {out : Option (List Char)} :
    bounds.max ≠ some 0 → Peg g body input (some middle) → Peg g (.repetition body bounds.less fallback) middle out →
      Peg g (.repetition body bounds fallback) input out
  | repetition_full {body : Expr} {bounds : Bounds} {fallback : Option Tree} {input : List Char} :
    bounds.max = some 0 →
      Peg g (.repetition body bounds fallback) input (if bounds.min = 0 then some input else none)
  | repetition_ends {body : Expr} {bounds : Bounds} {fallback : Option Tree} {input : List Char} :
    Peg g body input none →
      Peg g (.repetition body bounds fallback) input (if bounds.min = 0 then some input else none)
  | ahead {body : Expr} {input rest : List Char} : Peg g body input (some rest) → Peg g (.ahead body) input (some input)
  | ahead_fails {body : Expr} {input : List Char} : Peg g body input none → Peg g (.ahead body) input none
  | notAhead {body : Expr} {input : List Char} : Peg g body input none → Peg g (.notAhead body) input (some input)
  | notAhead_fails {body : Expr} {input rest : List Char} :
    Peg g body input (some rest) → Peg g (.notAhead body) input none

/-- An expression does one thing with a text. -/
theorem Peg.deterministic {g : Grammar} {e : Expr} {input : List Char} {out out' : Option (List Char)}
    (h : Peg g e input out) (h' : Peg g e input out') : out = out' := by
  induction h generalizing out' with
  | literal he =>
    cases h' with
    | literal he' => rw [List.append_cancel_left (he.symm.trans he')]
    | literal_fails hn => exact absurd ⟨_, he.symm⟩ hn
  | literal_fails hn =>
    cases h' with
    | literal he => exact absurd ⟨_, he.symm⟩ hn
    | literal_fails => rfl
  | pattern hc he =>
    cases h' with
    | pattern hc' he' =>
      cases hc.symm.trans hc'
      rw [List.append_cancel_left (he.symm.trans he')]
    | pattern_fails hn => simp [hc] at hn
  | pattern_fails hn =>
    cases h' with
    | pattern hc => simp [hn] at hc
    | pattern_fails => rfl
  | rule hb _ ih =>
    cases h' with
    | rule hb' h' =>
      cases hb.symm.trans hb'
      exact ih h'
  | sequence_nil =>
    cases h' with
    | sequence_nil => rfl
  | sequence_cons _ _ ih1 ih2 =>
    cases h' with
    | sequence_cons h1 h2 =>
      cases ih1 h1
      exact ih2 h2
    | sequence_fails h1 => cases ih1 h1
  | sequence_fails _ ih =>
    cases h' with
    | sequence_cons h1 _ => cases ih h1
    | sequence_fails => rfl
  | merge _ ih =>
    cases h' with
    | merge h' => exact ih h'
  | choice_nil =>
    cases h' with
    | choice_nil => rfl
  | choice_first _ ih =>
    cases h' with
    | choice_first h' => exact ih h'
    | choice_next h' _ => cases ih h'
  | choice_next _ _ ih1 ih2 =>
    cases h' with
    | choice_first h' => cases ih1 h'
    | choice_next _ h' => exact ih2 h'
  | repetition_more hm _ _ ih1 ih2 =>
    cases h' with
    | repetition_more _ h1 h2 =>
      cases ih1 h1
      exact ih2 h2
    | repetition_full he => exact absurd he hm
    | repetition_ends h1 => cases ih1 h1
  | repetition_full he =>
    cases h' with
    | repetition_more hm _ _ => exact absurd he hm
    | repetition_full => rfl
    | repetition_ends => rfl
  | repetition_ends _ ih =>
    cases h' with
    | repetition_more _ h1 _ => cases ih h1
    | repetition_full => rfl
    | repetition_ends => rfl
  | ahead _ ih =>
    cases h' with
    | ahead => rfl
    | ahead_fails h' => cases ih h'
  | ahead_fails _ ih =>
    cases h' with
    | ahead h' => cases ih h'
    | ahead_fails => rfl
  | notAhead _ ih =>
    cases h' with
    | notAhead => rfl
    | notAhead_fails h' => cases ih h'
  | notAhead_fails _ ih =>
    cases h' with
    | notAhead h' => cases ih h'
    | notAhead_fails => rfl

end Packrat

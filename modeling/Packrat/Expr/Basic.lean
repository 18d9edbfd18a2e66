/-
Parsing expressions. An expression is plain data: rules are referred to by name, and matchers that
are given from outside by a key. The builders keep chains flat, so that a sequence followed by one
more part is a longer sequence and not a nested one.
-/
import Packrat.Regex.Pattern
import Packrat.Tree.Basic
import Packrat.Grammar.Error

namespace Packrat

/-- How often a repetition may match. -/
structure Bounds where
  min : Nat
  max : Option Nat
deriving DecidableEq

/-- A parsing expression. -/
inductive Expr where
  | literal (text : List Char)
  | pattern (pattern : Pattern)
  | rule (name : String)
  | sequence (parts : List Expr)
  /-- A sequence that puts the items of list results among its own. -/
  | merge (parts : List Expr)
  | choice (alternatives : List Expr)
  /-- A repetition; the fallback, if there is one, is its result when nothing matched. -/
  | repetition (body : Expr) (bounds : Bounds) (fallback : Option Tree)
  /-- Holds where the body matches, and takes nothing. -/
  | ahead (body : Expr)
  /-- Holds where the body does not match, and takes nothing. -/
  | notAhead (body : Expr)
  /-- Takes what the body matches and leaves it out of the result. -/
  | omission (body : Expr)
  /-- A matcher given from outside. -/
  | external (key : Nat)

namespace Expr

/-! ## Building -/

/-- The expression for a pattern, if the pattern is well-formed. -/
def ofPattern (source : List Char) : Except GrammarError Expr :=
  match Pattern.ofSource? source with
  | some p => .ok (.pattern p)
  | none => .error (.badPattern source)

/-- A sequence of parts; one part alone stands for itself. -/
def sequenceOf : List Expr → Expr
  | [part] => part
  | parts => .sequence parts

/-- A merge of parts; one part alone stands for itself. -/
def mergeOf : List Expr → Expr
  | [part] => part
  | parts => .merge parts

/-- A choice among alternatives; one alternative alone stands for itself. -/
def choiceOf : List Expr → Expr
  | [alternative] => alternative
  | alternatives => .choice alternatives

/-- A sequence with one more part. -/
def followedBy (e next : Expr) : Expr :=
  match e with
  | .sequence parts => .sequence (parts ++ [next])
  | e => .sequence [e, next]

/-- A merge with one more part. -/
def mergedWith (e next : Expr) : Expr :=
  match e with
  | .merge parts => .merge (parts ++ [next])
  | e => .merge [e, next]

/-- A choice with one more alternative. -/
def orElse (e alternative : Expr) : Expr :=
  match e with
  | .choice alternatives => .choice (alternatives ++ [alternative])
  | e => .choice [e, alternative]

/-- At most once. -/
def atMostOnce (e : Expr) (fallback : Option Tree) : Expr := .repetition e ⟨0, some 1⟩ fallback

/-- Any number of times. -/
def anyTimes (e : Expr) (fallback : Option Tree) : Expr := .repetition e ⟨0, none⟩ fallback

/-- At least once. -/
def atLeastOnce (e : Expr) : Expr := .repetition e ⟨1, none⟩ none

/-! ## Inspection -/

/-- The name of the rule that an expression refers to, if it is a reference. -/
def reference? : Expr → Option String
  | .rule name => some name
  | _ => none

mutual

/-- The rules that an expression refers to, from left to right. -/
def references : Expr → List String
  | .rule name => [name]
  | .sequence parts | .merge parts | .choice parts => referencesAll parts
  | .repetition body _ _ | .ahead body | .notAhead body | .omission body => body.references
  | .literal _ | .pattern _ | .external _ => []

/-- The rules that some expressions refer to. -/
def referencesAll : List Expr → List String
  | [] => []
  | e :: rest => e.references ++ referencesAll rest

end

end Expr

end Packrat

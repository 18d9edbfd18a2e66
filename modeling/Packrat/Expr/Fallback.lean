/-
The fallbacks of expressions. Fallbacks bring spans with them that do not stem from the input, one
for each tree that they consist of.
-/
import Packrat.Grammar.Basic

namespace Packrat

mutual

/-- How many trees a tree consists of. -/
def Tree.size : Tree → Nat
  | .text .. | .found .. => 1
  | .list _ items => 1 + sizeAll items
  | .node _ _ fields => 1 + sizeFields fields

/-- How many trees some trees consist of. -/
def Tree.sizeAll : List Tree → Nat
  | [] => 0
  | t :: rest => t.size + sizeAll rest

/-- How many trees the fields of a node consist of. -/
def Tree.sizeFields : List (String × Tree) → Nat
  | [] => 0
  | (_, t) :: rest => t.size + sizeFields rest

end

mutual

/-- How many trees the fallbacks in an expression consist of. -/
def Expr.fallbackSize : Expr → Nat
  | .repetition body _ fallback => body.fallbackSize + fallback.elim 0 Tree.size
  | .sequence parts | .merge parts | .choice parts => fallbackSizeAll parts
  | .ahead body | .notAhead body | .omission body => body.fallbackSize
  | .literal _ | .pattern _ | .rule _ | .external _ => 0

/-- How many trees the fallbacks in some expressions consist of. -/
def Expr.fallbackSizeAll : List Expr → Nat
  | [] => 0
  | e :: rest => e.fallbackSize + fallbackSizeAll rest

end

namespace Grammar

/-- The skippers that come into effect in a grammar from an expression on. The default does not, if the
expression is a rule that overrides it. -/
def skippersFrom (g : Grammar) (root : Expr) : List Expr :=
  (if (root.reference?.bind g.override?).isSome then [] else g.skipper.toList) ++ g.overrides.flatMap (·.2.toList)

/-- How many trees the fallbacks consist of that a grammar may come to from an expression on. -/
def fallbackSize (g : Grammar) (root : Expr) : Nat :=
  Expr.fallbackSizeAll (root :: g.rules.map (·.2) ++ g.skippersFrom root)

end Grammar

end Packrat

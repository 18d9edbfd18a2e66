/-
Expressions as text, the way messages name them.
-/
import Packrat.Expr.Basic
import Packrat.Text.Quoted

namespace Packrat

/-- Repetition bounds in braces. -/
def Bounds.display (b : Bounds) : String :=
  "\x7b" ++ toString b.min ++ "," ++ (match b.max with | some n => toString n | none => "") ++ "\x7d"

namespace Expr

mutual

/-- The text of an expression. -/
def display : Expr → String
  | .literal text => quoteText text
  | .pattern p => p.display
  | .rule name => "rule: " ++ name
  | .sequence parts => "(" ++ String.intercalate " & " (displayAll parts) ++ ")"
  | .merge parts => "(" ++ String.intercalate " >> " (displayAll parts) ++ ")"
  | .choice alternatives => "(" ++ String.intercalate " | " (displayAll alternatives) ++ ")"
  | .repetition body bounds _ => body.display ++ bounds.display
  | .ahead body => body.display ++ ".and?"
  | .notAhead body => body.display ++ ".not!"
  | .omission body => body.display ++ ".skip"
  | .external _ => "<proc>"

/-- The texts of some expressions. -/
def displayAll : List Expr → List String
  | [] => []
  | e :: rest => e.display :: displayAll rest

end

end Expr

end Packrat

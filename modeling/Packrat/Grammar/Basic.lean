/-
Grammars: named rules in the order of their definition, the rule that parsing starts from, what to
skip between tokens, and the productions that turn results of rules into nodes.
-/
import Packrat.Expr.Basic
import Packrat.Grammar.Kind
import Packrat.Grammar.Production
import Packrat.Regex.Engine

namespace Packrat

/-- A grammar. -/
structure Grammar where
  start : String
  rules : List (String × Expr)
  /-- What to skip between tokens unless a rule overrides it. -/
  skipper : Option Expr
  /-- Rules with a skipper of their own, or with none. -/
  overrides : List (String × Option Expr)
  productions : List (String × Production)
  kinds : Kinds
  /-- How its patterns are matched. -/
  engine : Regex.Engine := .builtin

namespace Grammar

/-- The grammar without rules. -/
def empty : Grammar := ⟨"", [], none, [], [], .empty, .builtin⟩

/-- The body of a rule. -/
def rule? (g : Grammar) (name : String) : Option Expr := g.rules.lookup name

/-- The production of a rule. -/
def production? (g : Grammar) (rule : String) : Option Production := g.productions.lookup rule

/-- The skipping override of a rule; inside it, nothing means that the rule skips nothing. -/
def override? (g : Grammar) (rule : String) : Option (Option Expr) := g.overrides.lookup rule

/-- What a rule gives for the result of its body. Without a production the result passes, and its
extent becomes its own span, so that it accounts for all that the rule took. -/
def produce (g : Grammar) (rule : String) (tree : Tree) : Except GrammarError Tree :=
  match g.production? rule with
  | some production => production.node rule tree
  | none => .ok tree.widened

/-- The names that a grammar refers to: its start rule, then those in rule bodies, in the skipper
and in the overrides. -/
def references (g : Grammar) : List String :=
  g.start :: (g.rules.flatMap (·.2.references) ++ (g.skipper.elim [] Expr.references ++
    g.overrides.flatMap fun (_, skipper) => skipper.elim [] Expr.references))

end Grammar

end Packrat

/-
Grammars from lists of definitions. Definitions are checked one by one, each against those before
it; references to rules are checked when all definitions are known. The first problem found is the
answer.
-/
import Packrat.Grammar.Basic

namespace Packrat

/-- A step in building a grammar. -/
inductive Definition where
  | start (rule : String)
  | rule (name : String) (body : Expr)
  | skipper (skipper : Expr)
  /-- Another skipper while a rule is parsed, or none. -/
  | override (rule : String) (skipper : Option Expr)
  | kind (name : String) (parent : Option String)
  /-- Results of the rule become nodes of the kind of the same name. -/
  | production (rule : String) (fields : List String)

/-- A grammar whose start rule may still be open. -/
structure Draft where
  start : Option String
  grammar : Grammar

namespace Draft

/-- Nothing is defined. -/
def empty (engine : Regex.Engine := .builtin) : Draft := ⟨none, { Grammar.empty with engine }⟩

/-- Whether a rule is defined. -/
def hasRule (d : Draft) (name : String) : Bool := (d.grammar.rule? name).isSome

/-- Adds a definition. -/
def add (d : Draft) : Definition → Except GrammarError Draft
  | .start rule => if d.start.isSome then .error .duplicateStart else .ok { d with start := some rule }
  | .rule name body =>
    if d.hasRule name then .error (.duplicateRule name)
    else .ok { d with grammar.rules := d.grammar.rules ++ [(name, body)] }
  | .skipper skipper =>
    if d.grammar.skipper.isSome then .error .duplicateSkipper
    else .ok { d with grammar.skipper := some skipper }
  | .override rule skipper =>
    if !d.hasRule rule then .error (.overrideWithoutRule rule)
    else if (d.grammar.override? rule).isSome then .error (.duplicateOverride rule)
    else .ok { d with grammar.overrides := d.grammar.overrides ++ [(rule, skipper)] }
  | .kind name parent => do
    return { d with grammar.kinds := ← d.grammar.kinds.add name parent }
  | .production rule fields =>
    if !d.hasRule rule then .error (.productionWithoutRule rule)
    else if (d.grammar.production? rule).isSome then .error (.duplicateProduction rule)
    else match d.grammar.kinds.lineage? rule with
      | none => .error (.productionWithoutKind rule)
      | some lineage =>
        .ok { d with grammar.productions := d.grammar.productions ++ [(rule, .new lineage fields)] }

/-- The finished grammar: it needs a start rule, and every rule that it refers to. -/
def finish (d : Draft) : Except GrammarError Grammar :=
  match d.start with
  | none => .error .noStart
  | some start =>
    let grammar := { d.grammar with start }
    match grammar.references.find? fun name => (grammar.rule? name).isNone with
    | some name => .error (.unknownRule name)
    | none => .ok grammar

end Draft

/-- The grammar that some definitions give. -/
def Grammar.ofDefinitions (definitions : List Definition) (engine : Regex.Engine := .builtin) :
    Except GrammarError Grammar := do
  (← definitions.foldlM Draft.add (.empty engine)).finish

end Packrat

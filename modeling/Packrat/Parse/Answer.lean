/-
Whole parses: from a text to a result, with counts, events and a journal.
-/
import Packrat.Expr.Fallback
import Packrat.Parse.Apply

namespace Packrat

/-- Why a parse gave no result. -/
inductive Refusal where
  /-- The input does not match. -/
  | mismatch (failure : Failure)
  | grammar (error : GrammarError)
  /-- A rule comes back to itself and has no alternative to begin with. -/
  | noBaseCase (rule : String)

/-- The wording of a refusal. -/
def Refusal.message : Refusal → String
  | .mismatch failure => failure.message
  | .grammar error => error.message
  | .noBaseCase rule => "left-recursive rule '" ++ rule ++ "' has no base case"

/-- What a parse gave. -/
structure Answer where
  result : Except Refusal Tree
  counts : Counts
  events : List Event
  journal : List Note

namespace Job

/-- A bound on the places past the end of a text of the given length that results can claim, when
fallbacks consist of so many trees. Every such place lies some lines and columns behind the origin or
behind the span of a fallback, and each character of the text accounts for at most four of them. -/
def placesPastEnd (length fallbackSize : Nat) : Nat :=
  let extent := 4 * (length + 1)
  extent * extent * (fallbackSize + 1)

/-- The job of parsing a text with an expression, by a grammar. -/
def new (grammar : Grammar) (root : Expr) (options : Options) (externals : Externals)
    (input : List Char) : Job :=
  ⟨input, grammar, options, externals.matcher,
    placesPastEnd input.length (grammar.fallbackSize root) + externals.places⟩

/-- The result that an attempt of the root expression stands for. A silent match is an empty list at
the beginning of the text, and omitted input an empty list that spans it. -/
def resultOf (root : Expr) : Attempt → Except Refusal Tree
  | .settled (.matched tree) => .ok tree
  | .settled (.silent _) => .ok .nil
  | .settled (.omitted span) => .ok (.list (.own span) [])
  | .settled (.failed failure) => .error (.mismatch failure)
  | .recursion _ => .error (.noBaseCase (root.reference?.getD root.display))
  | .broken error => .error (.grammar error)

/-- Parses the job's text, starting from an expression. -/
def run (job : Job) (root : Expr) : Answer :=
  let (attempt, session) := (apply job root .start).run .start
  { result := resultOf root attempt
    counts := session.counts
    events := session.events.toList
    journal := session.journal.toList ++
      [.finished (byteLength job.input) root, .remembered session.memory.size] }

end Job

/-- Parses a text from the start rule of a grammar. -/
def Grammar.parse (g : Grammar) (options : Options) (externals : Externals) (input : List Char) :
    Answer :=
  let root := Expr.rule g.start
  (Job.new g root options externals input).run root

/-- Parses a text with an expression alone: nothing is skipped, and no rule is defined. -/
def Expr.parse (e : Expr) (externals : Externals) (input : List Char) : Except Refusal Tree :=
  ((Job.new .empty e .standard externals input).run e).result

end Packrat

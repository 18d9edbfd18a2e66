/-
The state of a parse: remembered verdicts, the rule entered last, the depth of nesting, counts,
events and the journal. Every step of a parse is a function on this state.
-/
import Packrat.Expr.Display
import Packrat.Grammar.Basic
import Packrat.Parse.Memory
import Packrat.Text.Bytes

namespace Packrat

/-- How to parse. -/
structure Options where
  /-- Remember verdicts and use them again. -/
  remember : Bool
  /-- The deepest allowed nesting of expressions. -/
  depthLimit : Nat
  counting : Bool
  tracing : Bool
deriving DecidableEq

/-- Remembers, counts, reports no events, and nests to a depth of 1024. -/
def Options.standard : Options := ⟨true, 1024, true, false⟩

/-- What was counted during a parse. -/
structure Counts where
  /-- Rule bodies that were tried. -/
  rules : Nat
  /-- Questions answered from memory. -/
  hits : Nat
  /-- Questions that memory could not answer. -/
  misses : Nat
  /-- Alternatives that failed. -/
  backtracks : Nat
  /-- Rules that came back to themselves. -/
  reentries : Nat
  /-- Suspensions that were resumed. -/
  resumptions : Nat
  /-- Rounds by which a resumed sequence got longer. -/
  growths : Nat
  /-- The deepest nesting that was reached. -/
  deepest : Nat
deriving DecidableEq

namespace Counts

/-- Nothing was counted. -/
def zero : Counts := ⟨0, 0, 0, 0, 0, 0, 0, 0⟩

/-- The counts of two parses together. -/
def merge (a b : Counts) : Counts where
  rules := a.rules + b.rules
  hits := a.hits + b.hits
  misses := a.misses + b.misses
  backtracks := a.backtracks + b.backtracks
  reentries := a.reentries + b.reentries
  resumptions := a.resumptions + b.resumptions
  growths := a.growths + b.growths
  deepest := max a.deepest b.deepest

end Counts

/-- Something that happened during a parse. -/
inductive Event where
  | enter (rule : String) (location : Location)
  | leave (rule : String) (holds : Bool)
  /-- A question was answered from memory. -/
  | answered (location : Location)
  /-- A rule came back to itself. -/
  | reentry (rule : String) (location : Location)
  | resume (location : Location)
  /-- An alternative failed at one place, and the next one starts at another. -/
  | backtrack (failed next : Location)
deriving DecidableEq

/-- An entry of the journal of a parse. -/
inductive Note where
  | reentry (rule : String) (location : Location)
  | resuming (waiting : Nat) (location : Location)
  | grown (location : Location)
  | finished (bytes : Nat) (root : Expr)
  | remembered (verdicts : Nat)

namespace Note

/-- How much detail an entry gives. -/
def level : Note → String
  | .reentry .. | .resuming .. | .finished .. => "DEBUG"
  | .grown _ | .remembered _ => "TRACE"

/-- The wording of an entry. -/
def message : Note → String
  | .reentry rule location =>
    "left recursion in " ++ (Expr.rule rule).display ++ " at " ++ location.display
  | .resuming waiting location =>
    "resuming " ++ toString waiting ++ " suspended frame(s) with base case ending at " ++ location.display
  | .grown location => "grew left-recursive result to " ++ location.display
  | .finished bytes root => "parse of " ++ toString bytes ++ " bytes with " ++ root.display ++ " finished"
  | .remembered verdicts => "parse finished with " ++ toString verdicts ++ " memoized outcomes"

end Note

/-- A matcher given from outside: from the text that is left and its location, a result or a
failure. -/
abbrev Matcher := List Char → Location → Except Failure Tree

/-- The matchers from outside that a parse is given. -/
structure Externals where
  /-- The matchers by their keys. -/
  matcher : Nat → Matcher
  /-- A bound on the places past the end of the input that their results claim. -/
  places : Nat

/-- Matchers whose results claim no such places. -/
instance : Coe (Nat → Matcher) Externals := ⟨fun matcher => ⟨matcher, 0⟩⟩

/-- What is parsed, by which grammar, and how. -/
structure Job where
  input : List Char
  grammar : Grammar
  options : Options
  /-- The matchers from outside, by their keys. -/
  externals : Nat → Matcher
  /-- How many rounds a loop may take at the end of the input, where only results that claim places
  past the end can still move it on. -/
  slack : Nat

namespace Job

/-- The skipper in effect. -/
def skipper? (job : Job) : SkipMode → Option Expr
  | .standard => job.grammar.skipper
  | .special skipper => some skipper
  | .off => none

/-- How many characters are left at a position. -/
def remaining (job : Job) (position : Position) : Nat := job.input.length - position.offset

end Job

/-- The state of a parse. -/
structure Session where
  memory : Memory
  /-- The rule entered last among those still open, and where. -/
  entered : Option (String × Location)
  /-- How many expressions are being tried inside one another. -/
  depth : Nat
  counts : Counts
  events : Array Event
  journal : Array Note

/-- The state in which a parse begins. -/
def Session.start : Session := ⟨.empty, none, 0, .zero, #[], #[]⟩

/-- A step of a parse. -/
abbrev Eval := StateM Session

/-- A way to try expressions. -/
abbrev Applier := Expr → Setting → Eval Attempt

namespace Eval

/-- Counts something, if counts are wanted. -/
def count (job : Job) (update : Counts → Counts) : Eval Unit :=
  modify fun s => if job.options.counting then { s with counts := update s.counts } else s

/-- Reports an event, if events are wanted. -/
def emit (job : Job) (event : Event) : Eval Unit :=
  modify fun s => if job.options.tracing then { s with events := s.events.push event } else s

/-- Adds an entry to the journal. -/
def note (entry : Note) : Eval Unit :=
  modify fun s => { s with journal := s.journal.push entry }

end Eval

end Packrat

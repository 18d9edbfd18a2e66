import Packrat.Expr.Display
import Packrat.Expr.Equality
import Packrat.Failure.Show
import Packrat.Grammar.Definition
import Packrat.Parse.Answer
import Packrat.Parse.Matcher
import Packrat.Tree.Equality
import Packrat.Tree.Json
import Packrat.Proofs.Session.Logic
import Packrat.Proofs.Session.Observers
import Packrat.Proofs.Text.Places
import Packrat.Proofs.Grammar.Parts
import Packrat.Proofs.Memory.Keeping
import Packrat.Proofs.Parse.Collecting
import Packrat.Proofs.Session.Persistence
import Packrat.Proofs.Peg.Conformance
import Packrat.Proofs.Recursion.Derivation
import Packrat.Proofs.Recursion.Soundness
import Packrat.Proofs.Recursion.Loops
import Packrat.Proofs.Recursion.Iteration
import Packrat.Proofs.Memory.Forgetting
import Packrat.Proofs.Memory.Steadiness
import Packrat.Proofs.Memory.Echo
import Packrat.Proofs.Memory.Recall
import Packrat.Proofs.Memory.Cycles
import Packrat.Proofs.Memory.Transparency
import Packrat.Proofs.Parse.Tokens
import Packrat.Proofs.Grammar.Modes
import Packrat.Proofs.Recursion.Escape
import Packrat.Proofs.Expr.Void
import Packrat.Proofs.Contract.Laws
import Packrat.Proofs.Contract.Runs
import Packrat.Proofs.Contract.Kept
import Packrat.Proofs.Contract.Fidelity
import Packrat.Proofs.Contract.Order
import Packrat.Proofs.Contract.Silence
import Packrat.Proofs.Session.Procedure
import Packrat.Proofs.Expr.Twins
import Packrat.Proofs.Grammar.Asking
import Packrat.Proofs.Parse.Concurrence
import Packrat.Proofs.Session.Calls
import Packrat.Proofs.Session.Strictness
import Packrat.Proofs.Recursion.Nesting
import Packrat.Proofs.Memory.Bare
import Packrat.Proofs.Memory.Gain
import Packrat.Proofs.Memory.Origins
import Packrat.Proofs.Recursion.Applications
import Packrat.Proofs.Memory.Sufficiency
import Packrat.Proofs.Memory.Bound
import Packrat.Proofs.Parse.Turns
import Packrat.Proofs.Contract.Presence
import Packrat.Proofs.Contract.Progress
import Packrat.Proofs.Contract.Reliance
import Packrat.Proofs.Contract.Halting
import Packrat.Proofs.Grammar.Acceptance
import Packrat.Proofs.Grammar.Breakage
import Packrat.Proofs.Contract.Lapses
import Packrat.Proofs.Correspondence.Laws
import Packrat.Proofs.Correspondence.Steps
import Packrat.Proofs.Correspondence.Operators
import Packrat.Proofs.Correspondence.Interchange
import Packrat.Proofs.Session.Trace
import Packrat.Proofs.Recursion.Culprit
import Packrat.Proofs.Failure.Pointing
import Packrat.Proofs.Contract.Flattening
import Packrat.Proofs.Recursion.Limit
import Packrat.Proofs.Correspondence.Defaulting
import Packrat.Proofs.Text.Shifts
import Packrat.Proofs.Correspondence.Translation
import Packrat.Proofs.Parse.Forward
import Packrat.Proofs.Parse.Bounds
import Packrat.Proofs.Parse.Literals
import Packrat.Proofs.Parse.Furthest
import Packrat.Proofs.Contract.Claims
import Packrat.Proofs.Parse.Retries
import Packrat.Proofs.Contract.Unrolling
import Packrat.Proofs.Text.Splitting
import Packrat.Proofs.Failure.Window
import Packrat.Proofs.Grammar.Lineage
import Packrat.Proofs.Expr.Coherence
import Packrat.Proofs.Parse.Slices
import Packrat.Proofs.Session.Levels
import Packrat.Proofs.Recursion.Applications

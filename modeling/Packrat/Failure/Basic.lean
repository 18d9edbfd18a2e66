/-
Parse failures: why the input does not match, and where matching stopped. A failure is recorded by
its cause; its wording is worked out only when it is shown.
-/
import Packrat.Text.Location
import Packrat.Text.Quoted

namespace Packrat

/-- The classes of failures. -/
inductive FailureKind where
  | wrongCharacter
  | endOfInput
  | noMatch
  | tooFew (required obtained : Nat)
  | exhausted
  | missing
  | forbidden
  | reported
  | tooDeep
deriving DecidableEq

/-- Why an expression did not match. -/
inductive Cause where
  /-- A literal wants one character where the input has another. -/
  | wrongCharacter (found expected : Char) (literal : List Char)
  /-- The input ends where a literal wants another character. -/
  | endOfInput (expected : Char) (literal : List Char)
  /-- A pattern does not match the rest of the input. -/
  | noMatch (rest : List Char) (pattern : List Char)
  /-- A repetition obtained fewer matches than it required. -/
  | tooFew (required obtained : Nat) (rest : List Char)
  /-- Every alternative of a choice failed; the cause of the failure that got furthest is kept. -/
  | exhausted (rest : List Char) (furthest : Cause)
  /-- A choice among nothing. -/
  | emptyChoice
  /-- What must lie ahead does not. -/
  | missing (expected : String) (rest : List Char)
  /-- What must not lie ahead does. -/
  | forbidden (unwanted : String) (rest : List Char)
  /-- A matcher from outside gave the reason, of a class and in words of its own choice. -/
  | given (kind : FailureKind) (message : String)
  /-- Expressions were nested deeper than allowed. -/
  | tooDeep (limit : Nat)
deriving DecidableEq

/-- How many characters of the input a message quotes. -/
def quotedLength : Nat := 40

/-- The beginning of a text as messages quote it. -/
def quoteStart (text : List Char) : String :=
  quoteText (if text.length ≤ quotedLength then text else text.take quotedLength ++ "...".toList)

namespace Cause

/-- A matcher from outside gave the reason in words of its own, and no other class. -/
def reported (message : String) : Cause := .given .reported message

/-- The class of a cause. -/
def kind : Cause → FailureKind
  | .wrongCharacter .. => .wrongCharacter
  | .endOfInput .. => .endOfInput
  | .noMatch .. => .noMatch
  | .tooFew required obtained _ => .tooFew required obtained
  | .exhausted .. | .emptyChoice => .exhausted
  | .missing .. => .missing
  | .forbidden .. => .forbidden
  | .given kind _ => kind
  | .tooDeep _ => .tooDeep

/-- The wording of a cause. -/
def message : Cause → String
  | .wrongCharacter found expected literal =>
    "unexpected character " ++ quoteChar found ++ " (expected " ++ quoteChar expected ++
      ") while parsing " ++ quoteText literal
  | .endOfInput expected literal =>
    "unexpected end-of-string (expected " ++ quoteChar expected ++ ") while parsing " ++ quoteText literal
  | .noMatch rest pattern =>
    "non-matching characters " ++ quoteStart rest ++ " while parsing regular expression /" ++
      String.ofList pattern ++ "/"
  | .tooFew required obtained rest =>
    "required " ++ toString required ++ " matches but obtained " ++ toString obtained ++
      " while parsing " ++ quoteStart rest
  | .exhausted rest furthest =>
    "no valid alternatives while parsing " ++ quoteStart rest ++ " (" ++ furthest.message ++ ")"
  | .emptyChoice => "no alternatives to choose from"
  | .missing expected rest =>
    "predicate not satisfied (expected " ++ quoteText expected.toList ++ ") while parsing " ++ quoteStart rest
  | .forbidden unwanted rest =>
    "predicate not satisfied (" ++ quoteText unwanted.toList ++ " not allowed) while parsing " ++ quoteStart rest
  | .given _ message => message
  | .tooDeep limit => "maximum nesting depth of " ++ toString limit ++ " exceeded"

end Cause

/-- The wording of a class of failures. -/
def FailureKind.display : FailureKind → String
  | .wrongCharacter => "unexpected character"
  | .endOfInput => "unexpected end of input"
  | .noMatch => "pattern did not match"
  | .tooFew required obtained =>
    "required " ++ toString required ++ " matches but obtained " ++ toString obtained
  | .exhausted => "no valid alternatives"
  | .missing => "predicate not satisfied"
  | .forbidden => "predicate not satisfied (not allowed)"
  | .reported => "custom parslet failed"
  | .tooDeep => "maximum nesting depth exceeded"

/-- The input does not match. -/
structure Failure where
  cause : Cause
  /-- Where matching stopped. -/
  stop : Location
deriving DecidableEq

namespace Failure

/-- The class of a failure. -/
def kind (f : Failure) : FailureKind := f.cause.kind

/-- The wording of a failure. -/
def message (f : Failure) : String := f.cause.message

/-- Got at least as far into the input as another failure. -/
def reaches (f g : Failure) : Bool := g.stop ≤ f.stop

/-- A choice failed; `furthest` is the failure among its alternatives that got furthest. -/
def exhausted (rest : List Char) (furthest : Failure) : Failure :=
  ⟨.exhausted rest furthest.cause, furthest.stop⟩

/-- Failures are told apart by what they show: class, wording and place. -/
def same (f g : Failure) : Bool := f.kind = g.kind && f.message == g.message && f.stop = g.stop

end Failure

end Packrat

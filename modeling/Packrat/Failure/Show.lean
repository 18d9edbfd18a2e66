/-
Parse failures shown against their source text: the lines around the place of the failure with a
caret below its column, or the place and the message on one line. Line numbers are shown one-based.
They are machine words: where the number of the last line asked for is none, nothing is shown.
-/
import Packrat.Failure.Basic
import Packrat.Text.Lines

namespace Packrat

/-- Line numbers are words of 64 bits. -/
def lineNumberRange : Nat := 18446744073709551616

/-- Why a computation with machine words breaks off without a result. -/
inductive Overflow where
  /-- The number of a line is too great for a word. -/
  | lineNumber
deriving DecidableEq

/-- The lines of a source from `context` lines before a line to `context` lines after it, with their
numbers; nothing if there is no such line. -/
def linesAround (source : List Char) (line context : Nat) : Option (List (Nat × List Char)) :=
  let all := splitLines source
  if all.length ≤ line then none
  else
    let first := line - context
    let last := min (line + context) (all.length - 1)
    some ((List.range' first (last + 1 - first)).map fun n => (n, all.getD n []))

/-- The lines around a line, computed with machine words. The line is looked up first, and then the
numbers are added. -/
def windowAround (source : List Char) (line context : Nat) : Except Overflow (Option (List (Nat × List Char))) :=
  match linesAround source line context with
  | none => .ok none
  | some shown => if lineNumberRange ≤ line + context then .error .lineNumber else .ok (some shown)

/-- So many blanks. -/
def blanks (count : Nat) : String := String.ofList (List.replicate count ' ')

/-- A number, filled up to a width with blanks before it. -/
def padNumber (width n : Nat) : String :=
  let digits := toString n
  blanks (width - digits.length) ++ digits

namespace Failure

/-- One line of context; below the line of the failure stands the caret. -/
def contextLine (f : Failure) (width : Nat) (number : Nat) (line : List Char) : String :=
  "\n" ++ padNumber width (number + 1) ++ " | " ++ String.ofList line ++
    if number = f.stop.line then
      "\n" ++ blanks width ++ " | " ++ blanks (min f.stop.column line.length) ++ "^"
    else ""

/-- A failure with lines of its source, if there are any. -/
def showWith (f : Failure) (lines : Option (List (Nat × List Char))) : String :=
  let head := "error: " ++ f.message ++ "\n  --> " ++ f.stop.display
  match lines with
  | none => head
  | some shown =>
    let width := match shown.getLast? with
      | some (number, _) => (toString (number + 1)).length
      | none => 1
    head ++ "\n" ++ blanks width ++ " |" ++
      String.join (shown.map fun (number, line) => f.contextLine width number line)

/-- A failure with the source lines around it. -/
def showInContext (f : Failure) (source : List Char) (context : Nat) : String :=
  f.showWith (linesAround source f.stop.line context)

/-- A failure with the source lines around it, computed with machine words. -/
def showInWindow (f : Failure) (source : List Char) (context : Nat) : Except Overflow String :=
  (windowAround source f.stop.line context).map f.showWith

/-- A failure on one line, after the name of the file if there is one. -/
def showLocated (f : Failure) (file : Option String) : String :=
  (match file with | some name => name ++ ":" | none => "") ++ f.stop.display ++ ": " ++ f.message

end Failure

end Packrat

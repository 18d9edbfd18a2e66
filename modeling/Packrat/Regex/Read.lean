/-
Regular expressions from symbols. The symbols are taken one by one while the groups that are still
open wait on a stack; a flag switched inside a group holds until that group closes.
-/
import Packrat.Regex.Token

namespace Packrat.Regex

/-- What has been read of one group: the modes in force, the branches already ended by a bar and
the items of the current branch, latest first in both. -/
structure Level where
  flags : Flags
  branches : List Regex
  items : List Regex
  /-- The latest symbol was an item, which a repetition may follow. -/
  repeatable : Bool

namespace Level

/-- A group in which nothing has been read. -/
def new (flags : Flags) : Level := ⟨flags, [], [], false⟩

/-- Adds an item to the current branch. -/
def push (l : Level) (item : Regex) : Level := { l with items := item :: l.items, repeatable := true }

/-- Ends the current branch. -/
def endBranch (l : Level) : Level :=
  { l with branches := catAll l.items.reverse :: l.branches, items := [], repeatable := false }

/-- The choice among all branches. -/
def regex (l : Level) : Regex := altAll l.endBranch.branches.reverse

end Level

/-- A group that waits for its closing parenthesis: its number, if it has one, and what was read
around it. -/
structure OpenGroup where
  index : Option Nat
  around : Level

/-- The state of reading a pattern. -/
structure Reader where
  level : Level
  enclosing : List OpenGroup
  /-- How many numbers have been given to groups; number 0 is the whole match. -/
  numbered : Nat
  names : List (List Char)

namespace Reader

/-- Nothing has been read. -/
def start : Reader := ⟨.new .initial, [], 1, []⟩

/-- Adds an item. -/
def push (r : Reader) (item : Regex) : Reader := { r with level := r.level.push item }

/-- Enters a group. -/
def enter (r : Reader) (index : Option Nat) (flags : Flags) : Reader :=
  { r with level := .new flags, enclosing := ⟨index, r.level⟩ :: r.enclosing }

/-- Leaves the innermost group. -/
def leave (r : Reader) : Option Reader :=
  match r.enclosing with
  | [] => none
  | opened :: enclosing =>
    let body := r.level.regex
    let item := match opened.index with
      | some index => .group index body
      | none => body
    some { r with level := opened.around.push item, enclosing }

/-- Takes one symbol. A repetition needs an item before it, a closing parenthesis an open group,
and no two groups have the same name. -/
def take (r : Reader) : Token → Option Reader
  | .set set => some (r.push (.one (if r.level.flags.ignoreCase then set.caseless else set)))
  | .check condition => some (r.push (.check condition))
  | .dot =>
    some (r.push (.one (if r.level.flags.dotAll then .all else .complement (.single '\n'))))
  | .caret => some (r.push (.check (if r.level.flags.multiLine then .lineStart else .textStart)))
  | .dollar => some (r.push (.check (if r.level.flags.multiLine then .lineEnd else .textEnd)))
  | .bar => some { r with level := r.level.endBranch }
  | .quantifier min max greedy =>
    match r.level.items with
    | item :: items =>
      if r.level.repeatable then
        some { r with level := { r.level with items := repetition item min max greedy :: items } }
      else none
    | [] => none
  | .openCapture name =>
    if name.any (r.names.contains ·) then none
    else some { r.enter (some r.numbered) r.level.flags with
      numbered := r.numbered + 1, names := name.toList ++ r.names }
  | .openPlain changes => some (r.enter none (changes.foldl Flags.apply r.level.flags))
  | .switch changes =>
    some { r with level := { r.level with flags := changes.foldl Flags.apply r.level.flags, repeatable := false } }
  | .close => r.leave

end Reader

/-- The regular expression that a pattern denotes, if it is a well-formed pattern. -/
def ofPattern? (pattern : List Char) : Option Regex := do
  let reader ← (← tokens? pattern).foldlM Reader.take .start
  if reader.enclosing.isEmpty then some reader.level.regex else none

end Packrat.Regex

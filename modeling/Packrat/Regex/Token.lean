/-
The symbols of a pattern. Reading symbols settles everything that does not depend on flags or on
groups: escapes, character classes, repetition bounds and the headers of groups. Each reader gives
what a text begins with and the rest of the text, or nothing if the text is refused.
-/
import Packrat.Regex.Basic

namespace Packrat.Regex

/-- The matching modes that a pattern can switch. -/
structure Flags where
  ignoreCase : Bool
  multiLine : Bool
  dotAll : Bool
deriving DecidableEq

/-- The modes in force where a pattern begins. -/
def Flags.initial : Flags := ⟨false, false, false⟩

/-- A mode switched on or off. -/
structure FlagChange where
  flag : Char
  value : Bool
deriving DecidableEq

/-- Carries out a change. -/
def Flags.apply (f : Flags) (change : FlagChange) : Flags :=
  if change.flag = 'i' then { f with ignoreCase := change.value }
  else if change.flag = 'm' then { f with multiLine := change.value }
  else { f with dotAll := change.value }

/-- A symbol of a pattern. -/
inductive Token where
  | set (set : CharSet)
  | check (condition : Check)
  | dot
  | caret
  | dollar
  | bar
  | quantifier (min : Nat) (max : Option Nat) (greedy : Bool)
  | openCapture (name : Option (List Char))
  | openPlain (changes : List FlagChange)
  | switch (changes : List FlagChange)
  | close
deriving DecidableEq

/-! ## Numbers -/

/-- The greatest bound that a repetition may have. -/
def countLimit : Nat := 4294967295

/-- A decimal number, with blanks around it allowed. -/
def readDecimal (text : List Char) : Option (Nat × List Char) :=
  let text := text.dropWhile isBlank
  let digits := text.takeWhile Char.isDigit
  let value := digits.foldl (fun n c => 10 * n + (c.toNat - '0'.toNat)) 0
  if digits = [] ∨ countLimit < value then none
  else some (value, (text.drop digits.length).dropWhile isBlank)

/-- The value of a hexadecimal digit. -/
def hexValue? (c : Char) : Option Nat :=
  if c.isDigit then some (c.toNat - '0'.toNat)
  else if 'a' ≤ c ∧ c ≤ 'f' then some (c.toNat - 'a'.toNat + 10)
  else if 'A' ≤ c ∧ c ≤ 'F' then some (c.toNat - 'A'.toNat + 10)
  else none

/-- The character with the code point that some hexadecimal digits give. -/
def charOfHex? (digits : List Char) : Option Char := do
  let values ← digits.mapM hexValue?
  let code := values.foldl (16 * · + ·) 0
  if digits ≠ [] ∧ code.isValidChar then some (Char.ofNat code) else none

/-- A code point in braces, or with exactly the given number of digits. -/
def readCodePoint (width : Nat) : List Char → Option (Char × List Char)
  | '\x7b' :: text => do
    let digits := text.takeWhile (· ≠ '\x7d')
    match text.drop digits.length with
    | _ :: rest => return (← charOfHex? digits, rest)
    | [] => none
  | text =>
    if text.length < width then none
    else do return (← charOfHex? (text.take width), text.drop width)

/-! ## Escapes -/

/-- What a backslash and the characters after it stand for. -/
inductive Escape where
  | char (c : Char)
  | named (cls : NamedClass) (inside : Bool)
  | check (condition : Check)

/-- The text after a backslash. A letter or digit without a meaning of its own is refused. -/
def readEscape : List Char → Option (Escape × List Char)
  | [] => none
  | 'd' :: rest => some (.named .digit true, rest)
  | 'D' :: rest => some (.named .digit false, rest)
  | 'w' :: rest => some (.named .word true, rest)
  | 'W' :: rest => some (.named .word false, rest)
  | 's' :: rest => some (.named .blank true, rest)
  | 'S' :: rest => some (.named .blank false, rest)
  | 'A' :: rest => some (.check .textStart, rest)
  | 'z' :: rest => some (.check .textEnd, rest)
  | 'b' :: rest => some (.check .wordEdge, rest)
  | 'B' :: rest => some (.check .noWordEdge, rest)
  | 'a' :: rest => some (.char '\x07', rest)
  | 'f' :: rest => some (.char '\x0c', rest)
  | 't' :: rest => some (.char '\t', rest)
  | 'n' :: rest => some (.char '\n', rest)
  | 'r' :: rest => some (.char '\r', rest)
  | 'v' :: rest => some (.char '\x0b', rest)
  | 'x' :: rest => (readCodePoint 2 rest).map fun (c, rest) => (.char c, rest)
  | 'u' :: rest => (readCodePoint 4 rest).map fun (c, rest) => (.char c, rest)
  | 'U' :: rest => (readCodePoint 8 rest).map fun (c, rest) => (.char c, rest)
  | c :: rest =>
    if c.toNat < 128 ∧ !c.isAlphanum ∧ c ≠ '<' ∧ c ≠ '>' then some (.char c, rest) else none

/-! ## Character classes -/

/-- A named class or its complement. -/
def namedSet (cls : NamedClass) (inside : Bool) : CharSet :=
  if inside then .named cls else .complement (.named cls)

/-- The classes of ASCII characters that are named by words. -/
def asciiClasses : List (String × List (Char × Char)) := [
  ("alnum", [('0', '9'), ('A', 'Z'), ('a', 'z')]),
  ("alpha", [('A', 'Z'), ('a', 'z')]),
  ("ascii", [('\x00', '\x7f')]),
  ("blank", [('\t', '\t'), (' ', ' ')]),
  ("cntrl", [('\x00', '\x1f'), ('\x7f', '\x7f')]),
  ("digit", [('0', '9')]),
  ("graph", [('!', '~')]),
  ("lower", [('a', 'z')]),
  ("print", [(' ', '~')]),
  ("punct", [('!', '/'), (':', '@'), ('[', '\x60'), ('\x7b', '~')]),
  ("space", [('\t', '\r'), (' ', ' ')]),
  ("upper", [('A', 'Z')]),
  ("word", [('0', '9'), ('A', 'Z'), ('_', '_'), ('a', 'z')]),
  ("xdigit", [('0', '9'), ('A', 'F'), ('a', 'f')])]

/-- The text after a bracket inside a class, if it names a class of ASCII characters between colons. -/
def readAsciiClass : List Char → Option (CharSet × List Char)
  | ':' :: text => do
    let (complemented, text) := match text with
      | '^' :: rest => (true, rest)
      | _ => (false, text)
    let name := text.takeWhile (· ≠ ':')
    match text.drop name.length with
    | ':' :: ']' :: rest =>
      let set := CharSet.ofRanges (← asciiClasses.lookup (String.ofList name))
      return (if complemented then .complement set else set, rest)
    | _ => none
  | _ => none

/-- A character or a named class inside brackets; every character but the backslash stands for
itself. -/
def readMember : List Char → Option (CharSet × List Char)
  | [] => none
  | '\\' :: text => do
    match ← readEscape text with
    | (.char c, rest) => some (.single c, rest)
    | (.named cls inside, rest) => some (namedSet cls inside, rest)
    | (.check _, _) => none
  | c :: rest => some (.single c, rest)

/-- A member of a class or a range between two characters. A hyphen before the closing bracket
stands for itself, and one before another hyphen is a part of an operation. -/
def readRange (text : List Char) : Option (CharSet × List Char) := do
  let (member, rest) ← readMember text
  match rest with
  | '-' :: after =>
    if after.head? = some ']' ∨ after.head? = some '-' then return (member, rest)
    let (bound, rest) ← readMember after
    match member, bound with
    | .range first _, .range last _ =>
      if first ≤ last then return (.range first last, rest) else none
    | _, _ => none
  | _ => return (member, rest)

/-- The beginning of a class, after its opening bracket: whether it is complemented, and the
characters that stand for themselves only there. These are hyphens, and a closing bracket that
would leave the class empty. -/
def readOpening (text : List Char) : Bool × CharSet × List Char :=
  let (complemented, text) := match text with
    | '^' :: rest => (true, rest)
    | _ => (false, text)
  let hyphens := text.takeWhile (· = '-')
  match hyphens, text.drop hyphens.length with
  | [], ']' :: rest => (complemented, .single ']', rest)
  | [], rest => (complemented, .empty, rest)
  | _ :: _, rest => (complemented, .single '-', rest)

/-- What a class holds, up to its closing bracket. `found` are the members read so far, and
`combine` says what becomes of them: operations take all members on their left as the one operand
and all up to the next operation as the other. Every call gets less text than the one before, which
bounds their nesting by `fuel`. -/
def readMembers : (fuel : Nat) → (combine : CharSet → CharSet) → (found : CharSet) → List Char →
    Option (CharSet × List Char)
  | 0, _, _, _ => none
  | fuel + 1, combine, found, text =>
    match text with
    | [] => none
    | ']' :: rest => some (combine found, rest)
    | '&' :: '&' :: rest => readMembers fuel (.inter (combine found)) .empty rest
    | '-' :: '-' :: rest => readMembers fuel (.diff (combine found)) .empty rest
    | '~' :: '~' :: rest => readMembers fuel (.symmDiff (combine found)) .empty rest
    | '[' :: rest =>
      match readAsciiClass rest with
      | some (set, rest) => readMembers fuel combine (.union found set) rest
      | none => do
        let (complemented, opening, rest) := readOpening rest
        let (set, rest) ← readMembers fuel id opening rest
        readMembers fuel combine (.union found (if complemented then .complement set else set)) rest
    | text => do
      let (set, rest) ← readRange text
      readMembers fuel combine (.union found set) rest

/-- The text after an opening bracket. -/
def readClass (text : List Char) : Option (CharSet × List Char) := do
  let (complemented, opening, rest) := readOpening text
  let (set, rest) ← readMembers (rest.length + 1) id opening rest
  return (if complemented then .complement set else set, rest)

/-! ## Repetitions and groups -/

/-- A question mark after a repetition makes it prefer fewer rounds. -/
def readGreedy : List Char → Bool × List Char
  | '?' :: rest => (false, rest)
  | text => (true, text)

/-- A repetition symbol with its laziness mark. -/
def quantifier (min : Nat) (max : Option Nat) (text : List Char) : Token × List Char :=
  let (greedy, rest) := readGreedy text
  (.quantifier min max greedy, rest)

/-- The text after the opening brace of a counted repetition. -/
def readCounts (text : List Char) : Option (Token × List Char) := do
  let (min, text) ← readDecimal text
  match text with
  | '\x7d' :: rest => return quantifier min (some min) rest
  | ',' :: '\x7d' :: rest => return quantifier min none rest
  | ',' :: text =>
    let (max, text) ← readDecimal text
    match text with
    | '\x7d' :: rest => if min ≤ max then return quantifier min (some max) rest else none
    | _ => none
  | _ => none

/-- The flag letters up to a colon or a closing parenthesis. Each letter may occur once, and a
hyphen, which turns the letters after it off, must have letters after it. -/
def readFlags : (value : Bool) → List FlagChange → List Char → Option ((List FlagChange × Char) × List Char)
  | _, _, [] => none
  | value, found, c :: rest =>
    if c = ':' ∨ c = ')' then
      if value ∨ found.any (!·.value) then some ((found.reverse, c), rest) else none
    else if c = '-' then
      if value then readFlags false found rest else none
    else if (c = 'i' ∨ c = 'm' ∨ c = 's') ∧ found.all (·.flag ≠ c) then
      readFlags value (⟨c, value⟩ :: found) rest
    else none

/-- A group name and the angle bracket that closes it. -/
def readGroupName (text : List Char) : Option (List Char × List Char) :=
  let name := text.takeWhile (· ≠ '>')
  let isFirst (c : Char) : Bool := c.isAlpha || c = '_'
  let isLater (c : Char) : Bool := isFirst c || c.isDigit || c = '.' || c = '[' || c = ']'
  match text.drop name.length with
  | _ :: rest => if (name.head?.any isFirst) ∧ name.all isLater then some (name, rest) else none
  | [] => none

/-- The text after an opening parenthesis. -/
def readGroup : List Char → Option (Token × List Char)
  | '?' :: 'P' :: '<' :: text => (readGroupName text).map fun (name, rest) => (.openCapture (some name), rest)
  | '?' :: '<' :: text => (readGroupName text).map fun (name, rest) => (.openCapture (some name), rest)
  | '?' :: text => do
    let ((changes, closer), rest) ← readFlags true [] text
    if closer = ':' then return (.openPlain changes, rest)
    else if changes = [] then none
    else return (.switch changes, rest)
  | text => some (.openCapture none, text)

/-! ## Symbols -/

/-- The first symbol of a text that is not empty. -/
def readToken (c : Char) (text : List Char) : Option (Token × List Char) :=
  match c with
  | '\\' => do
    match ← readEscape text with
    | (.char c, rest) => some (.set (.single c), rest)
    | (.named cls inside, rest) => some (.set (namedSet cls inside), rest)
    | (.check condition, rest) => some (.check condition, rest)
  | '[' => (readClass text).map fun (set, rest) => (.set set, rest)
  | '(' => readGroup text
  | ')' => some (.close, text)
  | '|' => some (.bar, text)
  | '.' => some (.dot, text)
  | '^' => some (.caret, text)
  | '$' => some (.dollar, text)
  | '*' => some (quantifier 0 none text)
  | '+' => some (quantifier 1 none text)
  | '?' => some (quantifier 0 (some 1) text)
  | '\x7b' => readCounts text
  | c => some (.set (.single c), text)

/-- All symbols of a text; each symbol takes at least one character, which bounds their number. -/
def readTokens : Nat → List Char → Option (List Token)
  | _, [] => some []
  | 0, _ :: _ => none
  | fuel + 1, c :: text => do
    let (token, rest) ← readToken c text
    return token :: (← readTokens fuel rest)

/-- The symbols of a pattern, if it is made of symbols. -/
def tokens? (pattern : List Char) : Option (List Token) := readTokens pattern.length pattern

end Packrat.Regex

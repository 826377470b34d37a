/-
# Blanks, comments and strings of a TOML document

The readers take the characters left and give back what they read together
with the rest, or nothing if the text is malformed. A reader that repeats
takes a bound on its steps; every step consumes a character, so the number
of characters left is always enough.

Key definitions: `Toml.endLine?`, `Toml.skipFill`, `Toml.escape?`,
`Toml.stringValue?`.
-/
import ClassTree.Hex

namespace ClassTree

namespace Toml

/-- A space or a tab. -/
def isBlank (c : Char) : Bool := c == ' ' || c == '\t'

/-- What comments and strings may hold: no control character but the tab. -/
def isPlain (c : Char) : Bool := c == '\t' || 0x20 ≤ c.val && c.val != 0x7f

/-- Drops leading blanks. -/
def skipBlanks (cs : List Char) : List Char := cs.dropWhile isBlank

/-- The rest after a line break. -/
def lineBreak? : List Char → Option (List Char)
  | '\n' :: cs => some cs
  | '\r' :: '\n' :: cs => some cs
  | _ => none

/-- Drops a comment up to the end of its line. -/
def skipComment : List Char → List Char
  | '#' :: cs => cs.dropWhile isPlain
  | cs => cs

/-- The rest after the end of a line: blanks, a comment, and a line break or
the end of the text. -/
def endLine? (cs : List Char) : Option (List Char) :=
  match skipComment (skipBlanks cs) with
  | [] => some []
  | cs => lineBreak? cs

/-- Drops blanks, line breaks and comments, as between the items of an array.
The flag tells whether a comment is being read. -/
def skipFill : Bool → List Char → Option (List Char)
  | _, [] => some []
  | _, '\n' :: cs => skipFill false cs
  | _, '\r' :: '\n' :: cs => skipFill false cs
  | true, c :: cs => if isPlain c then skipFill true cs else none
  | false, c :: cs =>
    if isBlank c then skipFill false cs
    else if c == '#' then skipFill true cs
    else some (c :: cs)

/-- Drops blanks and line breaks, as after a backslash that ends a line. -/
def skipGap : List Char → List Char
  | '\n' :: cs => skipGap cs
  | '\r' :: '\n' :: cs => skipGap cs
  | c :: cs => if isBlank c then skipGap cs else c :: cs
  | [] => []

/-! ### Escapes -/

/-- The character with a code, if the code stands for one. -/
def charOfCode? (n : Nat) : Option Char := if n.isValidChar then some (Char.ofNat n) else none

/-- Reads a character code of a fixed number of hexadecimal digits. -/
def code? (width : Nat) (cs : List Char) : Option (Char × List Char) := do
  guard ((cs.take width).length = width)
  let c ← charOfCode? (← Hex.number? (cs.take width))
  return (c, cs.drop width)

/-- Reads the rest of an escape, after the backslash. -/
def escape? : List Char → Option (Char × List Char)
  | 'b' :: cs => some ('\x08', cs)
  | 't' :: cs => some ('\t', cs)
  | 'n' :: cs => some ('\n', cs)
  | 'f' :: cs => some ('\x0c', cs)
  | 'r' :: cs => some ('\r', cs)
  | '\x22' :: cs => some ('\x22', cs)
  | '\\' :: cs => some ('\\', cs)
  | 'u' :: cs => code? 4 cs
  | 'U' :: cs => code? 8 cs
  | _ => none

/-! ### Strings -/

/-- Reads the rest of a basic string, after its opening quote. -/
def basic? : Nat → List Char → Option (List Char × List Char)
  | 0, _ => none
  | _, [] => none
  | bound + 1, c :: cs =>
    if c == '\x22' then some ([], cs)
    else if c == '\\' then do
      let (c, cs) ← escape? cs
      let (s, rest) ← basic? bound cs
      return (c :: s, rest)
    else if isPlain c then do
      let (s, rest) ← basic? bound cs
      return (c :: s, rest)
    else none

/-- Reads the rest of a literal string, after its opening apostrophe. -/
def literal? (cs : List Char) : Option (List Char × List Char) :=
  match cs.span fun c => isPlain c && c != '\x27' with
  | (s, '\x27' :: rest) => some (s, rest)
  | _ => none

/-- Up to two quotes may stand directly before the three that close a long
string; they belong to it. -/
def closing (quote : Char) (cs : List Char) : List Char × List Char :=
  let extra := (cs.take 2).takeWhile (· == quote)
  (extra, cs.drop extra.length)

/-- Reads the rest of a string of several lines, after its opening quotes.
Line breaks stay as they are written. Only in a basic string (`escapes`) does
the backslash escape, or remove the gap that starts with a line break. -/
def long? (quote : Char) (escapes : Bool) : Nat → List Char → Option (List Char × List Char)
  | 0, _ => none
  | _, [] => none
  | bound + 1, c :: cs =>
    if c == quote && (cs.take 2 == [quote, quote]) then some (closing quote (cs.drop 2))
    else if escapes && c == '\\' then
      match lineBreak? (skipBlanks cs) with
      | some rest => long? quote escapes bound (skipGap rest)
      | none => do
        let (c, cs) ← escape? cs
        let (s, rest) ← long? quote escapes bound cs
        return (c :: s, rest)
    else if isPlain c || (lineBreak? (c :: cs)).isSome then do
      let (s, rest) ← long? quote escapes bound cs
      return (c :: s, rest)
    else none

/-- Drops the line break directly after the quotes that open a long string. -/
def skipFirstBreak (cs : List Char) : List Char := (lineBreak? cs).getD cs

/-- Reads a string that fits on one line, as keys do. -/
def shortString? : List Char → Option (List Char × List Char)
  | '\x22' :: cs => basic? cs.length cs
  | '\x27' :: cs => literal? cs
  | _ => none

/-- Reads a string in any of its four forms. -/
def stringValue? : List Char → Option (List Char × List Char)
  | '\x22' :: '\x22' :: '\x22' :: cs =>
    let cs := skipFirstBreak cs
    long? '\x22' true cs.length cs
  | '\x27' :: '\x27' :: '\x27' :: cs =>
    let cs := skipFirstBreak cs
    long? '\x27' false cs.length cs
  | cs => shortString? cs

end Toml

end ClassTree

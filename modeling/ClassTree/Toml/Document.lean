/-
# TOML documents

A document is read line by line. A line is blank, a header, or a pair of key
and value; arrays may run over several lines. Reading first turns the text
into lines and then builds the table that the lines describe. An item of an
array costs two steps, one for the array and one for the value, so readers of
values are given twice the number of characters left.

Brackets and braces nest at most `Toml.maxDepth` deep, and a key has at most
as many parts.

Key definitions: `Toml.maxDepth`, `Toml.value?`, `Toml.Line`, `Toml.lines?`,
`Toml.build?`, `Toml.ofText?`.
-/
import ClassTree.Toml.Scalar

namespace ClassTree

namespace Toml

/-- How deep a document may nest. -/
def maxDepth : Nat := 80

/-! ### Keys -/

/-- The characters of keys that need no quotes. -/
def isBareKeyChar (c : Char) : Bool := c.isAlphanum || c == '_' || c == '-'

/-- Reads one part of a key. -/
def keyPart? (cs : List Char) : Option (String × List Char) :=
  match cs.span isBareKeyChar with
  | ([], cs) => (shortString? cs).map fun (s, rest) => (String.ofList s, rest)
  | (s, rest) => some (String.ofList s, rest)

/-- A key: the path to its table, and its last part. -/
structure Key where
  path : List String
  last : String

/-- Reads a key, parts divided by dots; blanks around the dots do not count.
The bound is the number of parts that a key may have. -/
def key? : Nat → List Char → Option (Key × List Char)
  | 0, _ => none
  | bound + 1, cs => do
    let (part, cs) ← keyPart? cs
    match skipBlanks cs with
    | '.' :: cs =>
      let (key, rest) ← key? bound (skipBlanks cs)
      return (⟨part :: key.path, key.last⟩, rest)
    | cs => return (⟨[], part⟩, cs)

/-! ### Values -/

mutual

/-- Reads a value with at most `depth` levels of brackets. -/
def value? : Nat → Nat → List Char → Option (Toml × List Char)
  | 0, _, _ => none
  | _ + 1, 0, '[' :: _ => none
  | _ + 1, 0, '\x7b' :: _ => none
  | bound + 1, depth + 1, '[' :: cs => do
    let (items, rest) ← items? bound depth cs
    return (.array false items, rest)
  | bound + 1, depth + 1, '\x7b' :: cs =>
    match skipBlanks cs with
    | '\x7d' :: rest => some (.table .inline [], rest)
    | cs => do
      let (entries, rest) ← pairs? bound depth [] cs
      return (.table .inline entries, rest)
  | _ + 1, _, cs =>
    if cs.head? == some '\x22' || cs.head? == some '\x27' then
      (stringValue? cs).map fun (s, rest) => (.string (String.ofList s), rest)
    else scalar? cs

/-- Reads the items of an array, up to its closing bracket. The last item may
be followed by a comma. -/
def items? : Nat → Nat → List Char → Option (List Toml × List Char)
  | 0, _, _ => none
  | bound + 1, depth, cs => do
    match ← skipFill false cs with
    | ']' :: rest => return ([], rest)
    | cs =>
      let (item, cs) ← value? bound depth cs
      match ← skipFill false cs with
      | ',' :: cs =>
        let (items, rest) ← items? bound depth cs
        return (item :: items, rest)
      | ']' :: rest => return ([item], rest)
      | _ => none

/-- Reads the pairs of an inline table into `entries`, up to its closing brace. -/
def pairs? : Nat → Nat → Entries → List Char → Option (Entries × List Char)
  | 0, _, _, _ => none
  | bound + 1, depth, entries, cs => do
    let (key, cs) ← key? maxDepth (skipBlanks cs)
    let cs ← expect? '=' cs
    let (value, cs) ← value? bound depth (skipBlanks cs)
    let entries ← addPair key.path key.last value .inline entries
    match skipBlanks cs with
    | ',' :: cs => pairs? bound depth entries cs
    | '\x7d' :: rest => return (entries, rest)
    | _ => none

end

/-! ### Lines -/

/-- A line that says something. -/
inductive Line
  | header (key : Key)
  | arrayHeader (key : Key)
  | pair (key : Key) (value : Toml)

/-- Reads a line that is not blank, without its end. -/
def line? (bound : Nat) : List Char → Option (Line × List Char)
  | '[' :: '[' :: cs => do
    let (key, cs) ← key? maxDepth (skipBlanks cs)
    let cs ← expect? ']' cs
    let cs ← expect? ']' cs
    return (.arrayHeader key, cs)
  | '[' :: cs => do
    let (key, cs) ← key? maxDepth (skipBlanks cs)
    let cs ← expect? ']' cs
    return (.header key, cs)
  | cs => do
    let (key, cs) ← key? maxDepth cs
    let cs ← expect? '=' cs
    let (value, cs) ← value? bound maxDepth (skipBlanks cs)
    return (.pair key value, cs)

/-- Reads all lines. -/
def lines? : Nat → List Char → Option (List Line)
  | 0, cs => if cs.isEmpty then some [] else none
  | _, [] => some []
  | bound + 1, cs =>
    match endLine? cs with
    | some rest => lines? bound rest
    | none => do
      let (line, cs) ← line? (2 * cs.length) (skipBlanks cs)
      let rest ← endLine? cs
      let lines ← lines? bound rest
      return line :: lines

/-! ### The table of a document -/

/-- Builds the table that lines describe. A pair goes into the table of the
last header, `current`. -/
def build? (current : List String) (entries : Entries) : List Line → Option Entries
  | [] => some entries
  | .header key :: lines => do
    let entries ← addHeader key.path key.last .defined entries
    build? (key.path ++ [key.last]) entries lines
  | .arrayHeader key :: lines => do
    let entries ← addArrayHeader key.path key.last .defined entries
    build? (key.path ++ [key.last]) entries lines
  | .pair key value :: lines => do
    let entries ← descend false (addPair key.path key.last value) current .defined entries
    build? current entries lines

/-- Drops a byte order mark at the start of a text. -/
def skipMark : List Char → List Char
  | '\ufeff' :: cs => cs
  | cs => cs

/-- The entries of the table that a text describes, if it is a document. -/
def ofText? (s : String) : Option Entries := do
  let cs := skipMark s.toList
  let lines ← lines? cs.length cs
  build? [] [] lines

end Toml

end ClassTree

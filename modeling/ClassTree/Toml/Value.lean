/-
# TOML values

A TOML document denotes a table. Tables are built up line by line, and which
later lines may extend a table depends on how it came about: a table made by
a header cannot be reached by dotted keys, one made by dotted keys cannot be
given a header, and an inline table is complete. `Toml.descend` is the one
way into a table; every line of a document edits a table at the end of such
a path.

Key definitions: `Toml`, `Toml.Origin`, `Toml.descend`, `Toml.addPair`,
`Toml.addHeader`, `Toml.addArrayHeader`.
-/
import ClassTree.Table

namespace ClassTree

/-- How a table came about. -/
inductive Toml.Origin
  /-- By its own header, as the whole document, or as an entry of an array of tables. -/
  | defined
  /-- On the way to a header further inside. -/
  | passed
  /-- By a dotted key. -/
  | dotted
  /-- Written out in braces. -/
  | inline
  deriving DecidableEq, Repr

/-- A TOML value. Numbers and moments are kept as they are written. -/
inductive Toml
  | string (s : String)
  | number (text : String)
  | boolean (b : Bool)
  | moment (text : String)
  /-- An array, written out or gathered from headers of an array of tables. -/
  | array (ofTables : Bool) (items : List Toml)
  | table (origin : Toml.Origin) (entries : List (String × Toml))

namespace Toml

/-- The entries of a table. -/
abbrev Entries := List (String × Toml)

/-- A change to a table, refused (`none`) if the table does not admit it. -/
abbrev Edit := Origin → Entries → Option Entries

/-- Edits the table at the end of a path. Missing tables are made on the way;
an array of tables is entered at its last entry. -/
def descend (dotted : Bool) (edit : Edit) : List String → Edit
  | [], origin, entries => edit origin entries
  | key :: path, _, entries =>
    match Table.find? key entries with
    | none =>
      let origin := if dotted then Origin.dotted else .passed
      (descend dotted edit path origin []).map fun inner => entries ++ [(key, .table origin inner)]
    | some (.table origin inner) =>
      if origin = .inline || dotted && origin = .defined then none
      else
        (descend dotted edit path origin inner).map fun inner =>
          Table.put key (.table origin inner) entries
    | some (.array true items) =>
      match items.getLast? with
      | some (.table origin inner) =>
        (descend dotted edit path origin inner).map fun inner =>
          Table.put key (.array true (items.dropLast ++ [.table origin inner])) entries
      | _ => none
    | some _ => none

/-- Adds a pair under a key that is a path and a last part. A dotted key goes
only into tables made by dotted keys, a plain key only into others. -/
def addPair (path : List String) (key : String) (value : Toml) : Edit :=
  descend (!path.isEmpty)
    (fun origin entries =>
      if decide (origin = .dotted) != !path.isEmpty then none
      else if (Table.find? key entries).isSome then none
      else some (entries ++ [(key, value)]))
    path

/-- Defines the table that a header names. A table that headers further
inside have passed is defined now; any other table is there already. -/
def addHeader (path : List String) (key : String) : Edit :=
  descend false
    (fun _ entries =>
      match Table.find? key entries with
      | none => some (entries ++ [(key, .table .defined [])])
      | some (.table .passed inner) => some (Table.put key (.table .defined inner) entries)
      | some _ => none)
    path

/-- Starts a new entry of the array of tables that a header names. -/
def addArrayHeader (path : List String) (key : String) : Edit :=
  descend false
    (fun _ entries =>
      match Table.find? key entries with
      | none => some (entries ++ [(key, .array true [.table .defined []])])
      | some (.array true items) =>
        some (Table.put key (.array true (items ++ [.table .defined []])) entries)
      | some _ => none)
    path

end Toml

end ClassTree

/-
# Plain data

Class trees are shown to the outside, and parts of them are taken from the
outside, as plain data: numbers, texts, lists and records. Bytes and
floating-point constants are written as hexadecimal digits of their bits, and
64-bit integers as decimal text, so that nothing is lost.

A field that is absent reads like `null`: as zero, as false, as an empty
list or as no text.

Key definitions: `Plain`, `ToPlain`, `OfPlain`, `Plain.get`, `Plain.read?`.
-/
import ClassTree.AttrList
import ClassTree.Hex
import ClassTree.Table

namespace ClassTree

/-- A piece of plain data. -/
inductive Plain
  | null
  | bool (b : Bool)
  | int (n : Int)
  | text (s : String)
  | list (items : List Plain)
  | record (fields : List (String × Plain))
  deriving Inhabited

/-- Can be shown as plain data. -/
class ToPlain (α : Type) where
  toPlain : α → Plain

/-- Can be read from plain data, where it is well formed. -/
class OfPlain (α : Type) where
  ofPlain? : Plain → Option α

export ToPlain (toPlain)
export OfPlain (ofPlain?)

namespace Plain

/-- A field of a record; `null` if it is absent. -/
def get (p : Plain) (key : String) : Plain :=
  match p with
  | .record fields => (fields.lookup key).getD .null
  | _ => .null

def isNull : Plain → Bool
  | .null => true
  | _ => false

/-- Reads a field of a record. -/
def read? {α : Type} [OfPlain α] (p : Plain) (key : String) : Option α := ofPlain? (p.get key)

end Plain

/-! ### Showing -/

instance : ToPlain Bool := ⟨.bool⟩
instance : ToPlain Int := ⟨.int⟩
instance : ToPlain Nat := ⟨fun n => .int n⟩
instance : ToPlain String := ⟨.text⟩
instance : ToPlain UInt8 := ⟨fun n => .int n.toNat⟩
instance : ToPlain UInt16 := ⟨fun n => .int n.toNat⟩
instance : ToPlain UInt32 := ⟨fun n => .int n.toNat⟩
instance : ToPlain Int8 := ⟨fun n => .int n.toInt⟩
instance : ToPlain Int16 := ⟨fun n => .int n.toInt⟩
instance : ToPlain Int32 := ⟨fun n => .int n.toInt⟩
instance : ToPlain Int64 := ⟨fun n => .text (toString n.toInt)⟩

instance [ToPlain α] : ToPlain (Option α) := ⟨fun x => (x.map toPlain).getD .null⟩
instance [ToPlain α] : ToPlain (List α) := ⟨fun xs => .list (xs.map toPlain)⟩
instance [ToPlain α] [ToPlain β] : ToPlain (α × β) := ⟨fun x => .list [toPlain x.1, toPlain x.2]⟩

/-- An absent list is shown as `null`, a present one as a list. -/
instance [ToPlain α] : ToPlain (AttrList α) := ⟨fun l => toPlain l.entries?⟩

instance : ToPlain ReplacePolicy := ⟨fun p => .text p.key⟩

instance [ToPlain κ] [ToPlain ν] : ToPlain (Table κ ν) :=
  ⟨fun t => .record [("policy", toPlain t.policy), ("entries", toPlain t.entries)]⟩

/-- Bytes as text. -/
def Plain.ofBytes (bytes : List UInt8) : Plain := .text (String.ofList (Hex.ofBytes bytes))

/-! ### Reading -/

instance : OfPlain String :=
  ⟨fun
    | .text s => some s
    | _ => none⟩

instance : OfPlain Bool :=
  ⟨fun
    | .null => some false
    | .bool b => some b
    | _ => none⟩

instance : OfPlain Int :=
  ⟨fun
    | .int n => some n
    | _ => none⟩

instance : OfPlain Nat :=
  ⟨fun
    | .null => some 0
    | .int n => n.toNat?
    | _ => none⟩

instance : OfPlain UInt8 := ⟨fun p => (ofPlain? p).map UInt8.ofNat⟩
instance : OfPlain UInt16 := ⟨fun p => (ofPlain? p).map UInt16.ofNat⟩
instance : OfPlain UInt32 := ⟨fun p => (ofPlain? p).map UInt32.ofNat⟩
instance : OfPlain Int8 := ⟨fun p => (ofPlain? p).map Int8.ofInt⟩
instance : OfPlain Int16 := ⟨fun p => (ofPlain? p).map Int16.ofInt⟩
instance : OfPlain Int32 := ⟨fun p => (ofPlain? p).map Int32.ofInt⟩
instance : OfPlain Int64 := ⟨fun p => ((ofPlain? p).bind String.toInt?).map Int64.ofInt⟩

instance [OfPlain α] : OfPlain (Option α) :=
  ⟨fun
    | .null => some none
    | p => (ofPlain? p).map some⟩

instance [OfPlain α] : OfPlain (List α) :=
  ⟨fun
    | .null => some []
    | .list items => items.mapM ofPlain?
    | _ => none⟩

instance [OfPlain α] [OfPlain β] : OfPlain (α × β) :=
  ⟨fun
    | .list [a, b] => return (← ofPlain? a, ← ofPlain? b)
    | _ => none⟩

instance : OfPlain ReplacePolicy := ⟨fun p => (ofPlain? p).bind ReplacePolicy.ofKey?⟩

/-- Reads bytes from text; no text reads as no bytes. -/
def Plain.bytes? (p : Plain) : Option (List UInt8) := do
  Hex.bytes? ((← (ofPlain? p : Option (Option String))).getD "").toList

end ClassTree

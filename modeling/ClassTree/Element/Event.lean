/-
# Building annotations from events

An annotation or an array is built by a sequence of element events. An event
that opens a nested annotation or array carries the events of its interior,
so a sequence is a tree. Absorbing an opening event stores a blank value at
once and then edits it in its slot; `Annot.absorb_annot` and its companions
say that this amounts to storing the finished value, whatever stood there
before.

`Annot.events` is the way back: the events that list the elements in order
and finish. An annotation is replayed into another by absorbing them.

Key definitions: `ElementEvent`, `Annot.absorb`, `ValueArray.absorb`,
`Annot.events`, `ValueArray.events`, `Annot.notices`.
-/
import ClassTree.Element.Value
import ClassTree.Notice

namespace ClassTree

/-- One step in the construction of an annotation or an array. Arrays ignore
the names. -/
inductive ElementEvent
  /-- A ready value. -/
  | value (name : String) (v : ElementValue)
  | enum (name descriptor constant : String)
  /-- Opens a nested annotation, whose interior `body` builds. -/
  | annot (name descriptor : String) (body : List ElementEvent)
  /-- Opens an array, whose interior `body` builds. -/
  | array (name : String) (body : List ElementEvent)
  | finish

namespace Annot

/-- Stores a value under a name. -/
def store (a : Annot) (name : String) (v : ElementValue) : Annot :=
  { a with elements := a.elements.insert name v }

/-- Edits the value under a name in its slot. -/
def edit (a : Annot) (name : String) (f : ElementValue → ElementValue) : Annot :=
  { a with elements := a.elements.modify name f }

/-- The value under a name. -/
def value? (a : Annot) (name : String) : Option ElementValue := a.elements.get? name

/-- Reports that a name is taken, before something is stored under it. -/
def replacing (a : Annot) (name : String) : List Notice :=
  if a.elements.contains name then [.elementReplaced name a.descriptor] else []

theorem edit_store (a : Annot) (name : String) (v : ElementValue)
    (f : ElementValue → ElementValue) : (a.store name v).edit name f = a.store name (f v) := by
  simp [store, edit, Table.modify_insert]

end Annot

namespace ValueArray

/-- Appends an item. -/
def push (r : ValueArray) (v : ElementValue) : ValueArray := { r with items := r.items ++ [v] }

/-- Edits the last item in its slot. -/
def editLast (r : ValueArray) (f : ElementValue → ElementValue) : ValueArray :=
  { r with items := r.items.modify (r.items.length - 1) f }

/-- Takes the last item out. -/
def pop (r : ValueArray) : ValueArray := { r with items := r.items.dropLast }

theorem editLast_push (r : ValueArray) (v : ElementValue) (f : ElementValue → ElementValue) :
    (r.push v).editLast f = r.push (f v) := by
  have h : (r.items ++ [v]).modify r.items.length f = r.items ++ [f v] := by
    induction r.items with
    | nil => rfl
    | cons w ws ih => simpa using ih
  simpa [push, editLast] using h

end ValueArray

/-! ### Absorbing -/

mutual

/-- The annotation after an event. -/
def Annot.absorb (a : Annot) : ElementEvent → Annot
  | .value name v => a.store name v
  | .enum name d c => a.store name (.enum d c)
  | .annot name d body =>
    (a.store name (.annot (Annot.blank d false a.elements.policy))).edit name fun
      | .annot inner => .annot (Annot.absorbAll inner body)
      | v => v
  | .array name body =>
    (a.store name (.array (ValueArray.blank a.elements.policy))).edit name fun
      | .array inner => .array (ValueArray.absorbAll inner body)
      | v => v
  | .finish => a

/-- The annotation after a sequence of events. -/
def Annot.absorbAll (a : Annot) : List ElementEvent → Annot
  | [] => a
  | e :: es => Annot.absorbAll (Annot.absorb a e) es

/-- The array after an event. -/
def ValueArray.absorb (r : ValueArray) : ElementEvent → ValueArray
  | .value _ v => r.push v
  | .enum _ d c => r.push (.enum d c)
  | .annot _ d body =>
    (r.push (.annot (Annot.blank d false r.policy))).editLast fun
      | .annot inner => .annot (Annot.absorbAll inner body)
      | v => v
  | .array _ body =>
    (r.push (.array (ValueArray.blank r.policy))).editLast fun
      | .array inner => .array (ValueArray.absorbAll inner body)
      | v => v
  | .finish => r

/-- The array after a sequence of events. -/
def ValueArray.absorbAll (r : ValueArray) : List ElementEvent → ValueArray
  | [] => r
  | e :: es => ValueArray.absorbAll (ValueArray.absorb r e) es

end

/-- A nested annotation is built from its own events alone. -/
theorem Annot.absorb_annot (a : Annot) (name d : String) (body : List ElementEvent) :
    a.absorb (.annot name d body) =
      a.store name (.annot (Annot.absorbAll (Annot.blank d false a.elements.policy) body)) := by
  rw [Annot.absorb, Annot.edit_store]

/-- A nested array is built from its own events alone. -/
theorem Annot.absorb_array (a : Annot) (name : String) (body : List ElementEvent) :
    a.absorb (.array name body) =
      a.store name (.array (ValueArray.absorbAll (ValueArray.blank a.elements.policy) body)) := by
  rw [Annot.absorb, Annot.edit_store]

/-- An annotation among the items is built from its own events alone. -/
theorem ValueArray.absorb_annot (r : ValueArray) (name d : String) (body : List ElementEvent) :
    r.absorb (.annot name d body) =
      r.push (.annot (Annot.absorbAll (Annot.blank d false r.policy) body)) := by
  rw [ValueArray.absorb, ValueArray.editLast_push]

/-- An array among the items is built from its own events alone. -/
theorem ValueArray.absorb_array (r : ValueArray) (name : String) (body : List ElementEvent) :
    r.absorb (.array name body) =
      r.push (.array (ValueArray.absorbAll (ValueArray.blank r.policy) body)) := by
  rw [ValueArray.absorb, ValueArray.editLast_push]

/-! ### Notices of absorbing -/

mutual

/-- What an annotation reports while it absorbs an event. -/
def Annot.notices (a : Annot) : ElementEvent → List Notice
  | .value name _ => a.replacing name
  | .enum name _ _ => a.replacing name
  | .annot name d body =>
    a.replacing name ++ Annot.noticesAll (Annot.blank d false a.elements.policy) body
  | .array name body =>
    a.replacing name ++ ValueArray.noticesAll (ValueArray.blank a.elements.policy) body
  | .finish => []

/-- What an annotation reports while it absorbs a sequence of events. -/
def Annot.noticesAll (a : Annot) : List ElementEvent → List Notice
  | [] => []
  | e :: es => Annot.notices a e ++ Annot.noticesAll (a.absorb e) es

/-- What an array reports while it absorbs an event. -/
def ValueArray.notices (r : ValueArray) : ElementEvent → List Notice
  | .annot _ d body => Annot.noticesAll (Annot.blank d false r.policy) body
  | .array _ body => ValueArray.noticesAll (ValueArray.blank r.policy) body
  | _ => []

/-- What an array reports while it absorbs a sequence of events. -/
def ValueArray.noticesAll (r : ValueArray) : List ElementEvent → List Notice
  | [] => []
  | e :: es => ValueArray.notices r e ++ ValueArray.noticesAll (r.absorb e) es

end

/-! ### Replay -/

mutual

/-- The event that sets a value under a name. -/
def ElementValue.event (name : String) : ElementValue → ElementEvent
  | .enum d c => .enum name d c
  | .annot ⟨d, _, ⟨es, _⟩⟩ => .annot name d (ElementValue.entryEvents es)
  | .array ⟨vs, _⟩ => .array name (ElementValue.itemEvents vs)
  | v => .value name v

/-- The events that list named elements in order and finish. -/
def ElementValue.entryEvents : List (String × ElementValue) → List ElementEvent
  | [] => [.finish]
  | (name, v) :: es => ElementValue.event name v :: ElementValue.entryEvents es

/-- The events that list items in order, under the empty name, and finish. -/
def ElementValue.itemEvents : List ElementValue → List ElementEvent
  | [] => [.finish]
  | v :: vs => ElementValue.event "" v :: ElementValue.itemEvents vs

end

/-- The events that build the elements of an annotation. -/
def Annot.events (a : Annot) : List ElementEvent := ElementValue.entryEvents a.elements.entries

/-- The events that build the items of an array. -/
def ValueArray.events (r : ValueArray) : List ElementEvent := ElementValue.itemEvents r.items

end ClassTree

/-
# Places inside a value

A place leads from an annotation or an array to a value nested in it: a name
selects an element of an annotation, a position an item of an array.

Key definitions: `Selector`, `ElementValue.child?`, `ElementValue.at?`,
`ElementValue.modifyAt`.
-/
import ClassTree.Element.Event

namespace ClassTree

/-- One step into a value. -/
inductive Selector
  | element (name : String)
  | item (index : Nat)
  deriving DecidableEq, Repr

namespace ElementValue

/-- The value that one step selects, if the step fits and selects something. -/
def child? : Selector → ElementValue → Option ElementValue
  | .element name, .annot a => Annot.value? a name
  | .item i, .array r => r.items[i]?
  | _, _ => none

/-- The value at a place. -/
def at? : List Selector → ElementValue → Option ElementValue
  | [], v => some v
  | s :: place, v => (child? s v).bind (at? place)

/-- Edits the value at a place where it stands; if nothing is there, nothing. -/
def modifyAt (f : ElementValue → ElementValue) : List Selector → ElementValue → ElementValue
  | [], v => f v
  | .element name :: place, .annot a => .annot (Annot.edit a name (modifyAt f place))
  | .item i :: place, .array r => .array { r with items := r.items.modify i (modifyAt f place) }
  | _, v => v

end ElementValue

end ClassTree

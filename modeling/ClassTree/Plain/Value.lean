/-
# Values as plain data

Tiers, features, access words, constants, type paths and element values. A
constant or an element value is a record whose only field names its kind.

Key definitions: `Constant.parts`, `Constant.ofPart?`, `ElementValue.parts`,
`ElementValue.ofPart?`.
-/
import ClassTree.Access
import ClassTree.Element.Value
import ClassTree.Plain.Basic
import ClassTree.TypePath

namespace ClassTree

instance : ToPlain Tier := ⟨fun t => .text t.key⟩
instance : OfPlain Tier := ⟨fun p => (ofPlain? p).bind Tier.ofKey?⟩

instance : ToPlain Feature := ⟨fun f => .text f.label⟩
instance : OfPlain Feature :=
  ⟨fun p => (ofPlain? p).bind fun s => Feature.all.find? (·.label == (s : String))⟩

instance : ToPlain Access := ⟨fun a => toPlain a.bits⟩
instance : OfPlain Access := ⟨fun p => (ofPlain? p).map Access.mk⟩

instance : ToPlain Binary32 := ⟨fun x => .text (String.ofList (Hex.digits 8 x.bits.toNat))⟩
instance : ToPlain Binary64 := ⟨fun x => .text (String.ofList (Hex.digits 16 x.bits.toNat))⟩

instance : OfPlain Binary32 :=
  ⟨fun p => do return ⟨UInt32.ofNat (← Hex.number? (← (ofPlain? p : Option String)).toList)⟩⟩

instance : OfPlain Binary64 :=
  ⟨fun p => do return ⟨UInt64.ofNat (← Hex.number? (← (ofPlain? p : Option String)).toList)⟩⟩

/-! ### Type paths -/

instance : ToPlain TypePath := ⟨fun p => .text p.text⟩

instance : ToPlain TypePath.Step := ⟨fun s => toPlain (s.kind.code, s.argument)⟩

instance : OfPlain TypePath.Step :=
  ⟨fun p => do
    let (kind, argument) ← ofPlain? p
    return ⟨← TypePath.Kind.ofCode? kind, argument⟩⟩

/-- A path is read from its text or from a list of steps. -/
instance : OfPlain TypePath :=
  ⟨fun
    | .text s => (TypePath.ofText s).toOption
    | p => (ofPlain? p).map TypePath.mk⟩

/-! ### Constants -/

/-- The kind and the content of a constant. -/
def Constant.parts : Constant → String × Plain
  | .int n => ("int", toPlain n)
  | .float x => ("float", toPlain x)
  | .long n => ("long", toPlain n)
  | .double x => ("double", toPlain x)
  | .string s => ("string", toPlain s)

/-- The constant of a kind with a content. -/
def Constant.ofPart? : String × Plain → Option Constant
  | ("int", p) => (ofPlain? p).map .int
  | ("float", p) => (ofPlain? p).map .float
  | ("long", p) => (ofPlain? p).map .long
  | ("double", p) => (ofPlain? p).map .double
  | ("string", p) => (ofPlain? p).map .string
  | _ => none

instance : ToPlain Constant := ⟨fun c => .record [c.parts]⟩

instance : OfPlain Constant :=
  ⟨fun
    | .record [part] => Constant.ofPart? part
    | _ => none⟩

/-! ### Element values -/

namespace ElementValue

/-- The kinds of element values. -/
def kinds : List String :=
  ["byte", "boolean", "char", "short", "int", "long", "float", "double", "string", "type", "enum",
    "annotation", "array"]

/-- An annotation, from its elements as plain data. -/
def annotRecord (descriptor : String) (visible : Bool) (policy : ReplacePolicy)
    (entries : List Plain) : Plain :=
  .record [("descriptor", .text descriptor), ("visible", .bool visible),
    ("values", .record [("policy", toPlain policy), ("entries", .list entries)])]

mutual

/-- The kind and the content of a value. -/
def parts : ElementValue → String × Plain
  | .byte n => ("byte", toPlain n)
  | .boolean b => ("boolean", toPlain b)
  | .char u => ("char", toPlain u)
  | .short n => ("short", toPlain n)
  | .int n => ("int", toPlain n)
  | .long n => ("long", toPlain n)
  | .float x => ("float", toPlain x)
  | .double x => ("double", toPlain x)
  | .string s => ("string", toPlain s)
  | .classLiteral d => ("type", toPlain d)
  | .enum d c => ("enum", toPlain (d, c))
  | .annot ⟨d, v, ⟨es, p⟩⟩ => ("annotation", annotRecord d v p (entryParts es))
  | .array ⟨vs, _⟩ => ("array", .list (itemParts vs))

/-- Named elements as plain data. -/
def entryParts : List (String × ElementValue) → List Plain
  | [] => []
  | (k, v) :: es => .list [.text k, .record [parts v]] :: entryParts es

/-- Items as plain data. -/
def itemParts : List ElementValue → List Plain
  | [] => []
  | v :: vs => .record [parts v] :: itemParts vs

end

/-- The value of a kind with a content, where it holds no further values. -/
def ofPart? : String × Plain → Option ElementValue
  | ("byte", p) => (ofPlain? p).map .byte
  | ("boolean", p) => (ofPlain? p).map .boolean
  | ("char", p) => (ofPlain? p).map .char
  | ("short", p) => (ofPlain? p).map .short
  | ("int", p) => (ofPlain? p).map .int
  | ("long", p) => (ofPlain? p).map .long
  | ("float", p) => (ofPlain? p).map .float
  | ("double", p) => (ofPlain? p).map .double
  | ("string", p) => (ofPlain? p).map .string
  | ("type", p) => (ofPlain? p).map .classLiteral
  | ("enum", p) => (ofPlain? p).map fun (d, c) => .enum d c
  | _ => none

end ElementValue

instance : ToPlain ElementValue := ⟨fun v => .record [v.parts]⟩

instance : ToPlain Annot :=
  ⟨fun a => ElementValue.annotRecord a.descriptor a.visible a.elements.policy
    (ElementValue.entryParts a.elements.entries)⟩

instance : ToPlain ValueArray := ⟨fun r => .list (ElementValue.itemParts r.items)⟩

end ClassTree

/-
# Fields

A field is declared by its head and carries metadata. Whether its initial
value fits its descriptor is not asked.

Key definitions: `FieldHead`, `FieldDecl`, `FieldDecl.absorb`,
`FieldDecl.body`, `FieldDecl.inspect`.
-/
import ClassTree.Access
import ClassTree.Metadata

namespace ClassTree

/-- What declares a field. -/
structure FieldHead where
  access : Access
  name : String
  descriptor : String
  signature : Option String
  value : Option Constant

instance : BEq FieldHead :=
  ⟨fun a b => a.access == b.access && a.name == b.name && a.descriptor == b.descriptor &&
    a.signature == b.signature && a.value == b.value⟩

/-- A field: its head and its metadata. -/
structure FieldDecl extends FieldHead where
  metadata : Metadata

instance : BEq FieldDecl :=
  ⟨fun f g => f.toFieldHead == g.toFieldHead && f.metadata == g.metadata⟩

namespace FieldDecl

/-- A field without metadata. -/
def blank (head : FieldHead) (policy : ReplacePolicy) : FieldDecl := ⟨head, .blank policy⟩

/-- Gives a policy to everything inside the field. -/
def setPolicy (p : ReplacePolicy) (f : FieldDecl) : FieldDecl :=
  { f with metadata := f.metadata.setPolicy p }

/-- The field after an event. -/
def absorb (f : FieldDecl) (e : MemberEvent) : FieldDecl :=
  { f with metadata := f.metadata.absorb e }

/-- The field after a sequence of events. -/
def absorbAll (f : FieldDecl) (es : List MemberEvent) : FieldDecl := es.foldl absorb f

/-- What the field reports while it absorbs a sequence of events. -/
def noticesAll (f : FieldDecl) (es : List MemberEvent) : List Notice := f.metadata.noticesAll es

/-- The events that build the interior of the field. -/
def body (f : FieldDecl) : List MemberEvent := f.metadata.events ++ [.finish]

/-- Checks the type annotations, then descends. -/
def inspect (f : FieldDecl) (t : Tier) : Check Unit := do
  f.metadata.inspectTypes t f.name
  f.metadata.inspectInside t

end FieldDecl

end ClassTree

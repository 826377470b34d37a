/-
# Record components

A component of a record class is declared by its head and carries metadata.
The record shape itself belongs to the class, and is checked there.

Key definitions: `ComponentHead`, `ComponentDecl`, `ComponentDecl.absorb`,
`ComponentDecl.body`, `ComponentDecl.inspect`.
-/
import ClassTree.Metadata

namespace ClassTree

/-- What declares a record component. -/
structure ComponentHead where
  name : String
  descriptor : String
  signature : Option String
  deriving DecidableEq, Repr

/-- A record component: its head and its metadata. -/
structure ComponentDecl extends ComponentHead where
  metadata : Metadata

instance : BEq ComponentDecl :=
  ⟨fun c d => c.toComponentHead == d.toComponentHead && c.metadata == d.metadata⟩

namespace ComponentDecl

/-- A component without metadata. -/
def blank (head : ComponentHead) (policy : ReplacePolicy) : ComponentDecl := ⟨head, .blank policy⟩

/-- The component after an event. -/
def absorb (c : ComponentDecl) (e : MemberEvent) : ComponentDecl :=
  { c with metadata := c.metadata.absorb e }

/-- The component after a sequence of events. -/
def absorbAll (c : ComponentDecl) (es : List MemberEvent) : ComponentDecl := es.foldl absorb c

/-- What the component reports while it absorbs a sequence of events. -/
def noticesAll (c : ComponentDecl) (es : List MemberEvent) : List Notice :=
  c.metadata.noticesAll es

/-- The events that build the interior of the component. -/
def body (c : ComponentDecl) : List MemberEvent := c.metadata.events ++ [.finish]

/-- Checks the type annotations, then descends. -/
def inspect (c : ComponentDecl) (t : Tier) : Check Unit := do
  c.metadata.inspectTypes t c.name
  c.metadata.inspectInside t

end ComponentDecl

end ClassTree

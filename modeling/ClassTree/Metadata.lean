/-
# Metadata of classes and members

Classes, fields, methods and record components carry the same metadata:
annotations keyed by descriptor, annotations on the types they use, and
extensions, payloads that are stored and handed back unread.

An annotation replaces one with the same descriptor whatever their flags; a
type annotation is appended to the list of its flag and never replaces.
`Metadata.events` lists the metadata in its fixed order, and absorbing these
events replays it.

Key definitions: `Metadata`, `MemberEvent`, `Metadata.absorb`,
`Metadata.events`, `Metadata.insertAnnot`, `Metadata.inspectTypes`,
`Metadata.inspectInside`.
-/
import ClassTree.Element.Event
import ClassTree.TypePath

namespace ClassTree

/-- A named payload that is stored and handed back unread. -/
structure Extension where
  name : String
  payload : List UInt8
  deriving DecidableEq, Repr

/-- An annotation on the use of a type. The reference says which type of its
owner is meant; it is kept without interpretation. -/
structure TypeAnnot where
  typeRef : UInt32
  typePath : Option TypePath
  annot : Annot

instance : BEq TypeAnnot :=
  ⟨fun a b => a.typeRef == b.typeRef && a.typePath == b.typePath && a.annot == b.annot⟩

/-- Checks the annotation. -/
def TypeAnnot.inspect (t : Tier) (a : TypeAnnot) : Check Unit := Annot.inspect t a.annot

/-- What every class and member can carry. -/
structure Metadata where
  /-- Keyed by descriptor. -/
  annots : Table String Annot
  visibleTypeAnnots : AttrList TypeAnnot
  invisibleTypeAnnots : AttrList TypeAnnot
  extensions : AttrList Extension

instance : BEq Metadata :=
  ⟨fun m n => m.annots == n.annots && m.visibleTypeAnnots == n.visibleTypeAnnots &&
    m.invisibleTypeAnnots == n.invisibleTypeAnnots && m.extensions == n.extensions⟩

/-- One step in the construction of metadata. -/
inductive MemberEvent
  /-- Opens an annotation, whose elements `body` builds. -/
  | annot (descriptor : String) (visible : Bool) (body : List ElementEvent)
  /-- Opens a type annotation, whose elements `body` builds. -/
  | typeAnnot (typeRef : UInt32) (typePath : Option TypePath) (descriptor : String)
      (visible : Bool) (body : List ElementEvent)
  | extension (x : Extension)
  | finish

namespace Metadata

/-- Metadata that holds nothing. -/
def blank (policy : ReplacePolicy) : Metadata := ⟨.empty policy, .absent, .absent, .absent⟩

/-- The policy for everything built inside. -/
def policy (m : Metadata) : ReplacePolicy := m.annots.policy

/-- The list of type annotations of a flag. -/
def typeAnnots (m : Metadata) : Bool → AttrList TypeAnnot
  | true => m.visibleTypeAnnots
  | false => m.invisibleTypeAnnots

/-- Edits the list of type annotations of a flag. -/
def modifyTypeAnnots (m : Metadata) (visible : Bool)
    (f : AttrList TypeAnnot → AttrList TypeAnnot) : Metadata :=
  if visible then { m with visibleTypeAnnots := f m.visibleTypeAnnots }
  else { m with invisibleTypeAnnots := f m.invisibleTypeAnnots }

/-- Whether there is any type annotation, of either flag. -/
def hasTypeAnnots (m : Metadata) : Bool :=
  !m.visibleTypeAnnots.isEmpty || !m.invisibleTypeAnnots.isEmpty

/-- Gives a policy to all annotations and to everything inside them. -/
def setPolicy (p : ReplacePolicy) (m : Metadata) : Metadata :=
  { m with
    annots := (m.annots.map (Annot.setPolicy p)).setPolicy p
    visibleTypeAnnots :=
      m.visibleTypeAnnots.map fun a => { a with annot := Annot.setPolicy p a.annot }
    invisibleTypeAnnots :=
      m.invisibleTypeAnnots.map fun a => { a with annot := Annot.setPolicy p a.annot } }

/-- Stores a finished annotation under its descriptor; it takes over the
policy of its new place. -/
def insertAnnot (m : Metadata) (a : Annot) : Metadata :=
  { m with annots := m.annots.insert a.descriptor (Annot.setPolicy m.policy a) }

/-- Stores a finished annotation as `insertAnnot` does, and hands back the one
that it replaces. -/
def getThenInsertAnnot? (m : Metadata) (a : Annot) : Option Annot × Metadata :=
  let (old, annots) := m.annots.getThenInsert? a.descriptor (Annot.setPolicy m.policy a)
  (old, { m with annots })

/-- Takes out the annotation with a descriptor. -/
def removeAnnot (m : Metadata) (descriptor : String) : Metadata :=
  { m with annots := m.annots.erase descriptor }

/-! ### Absorbing -/

/-- The metadata after an event. -/
def absorb (m : Metadata) : MemberEvent → Metadata
  | .annot d visible body =>
    { m with
      annots := (m.annots.insert d (Annot.blank d visible m.policy)).modify d
        (Annot.absorbAll · body) }
  | .typeAnnot ref path d visible body =>
    m.modifyTypeAnnots visible fun l =>
      (l.push ⟨ref, path, Annot.blank d visible m.policy⟩).modifyLast fun a =>
        { a with annot := Annot.absorbAll a.annot body }
  | .extension x => { m with extensions := m.extensions.push x }
  | .finish => m

/-- The metadata after a sequence of events. -/
def absorbAll (m : Metadata) (es : List MemberEvent) : Metadata := es.foldl absorb m

/-- What the metadata reports while it absorbs an event. -/
def notices (m : Metadata) : MemberEvent → List Notice
  | .annot d visible body =>
    ((m.annots.get? d).map fun old => Notice.annotReplaced d old.visible visible).toList ++
      Annot.noticesAll (Annot.blank d visible m.policy) body
  | .typeAnnot _ _ d visible body => Annot.noticesAll (Annot.blank d visible m.policy) body
  | .extension _ => []
  | .finish => []

/-- What the metadata reports while it absorbs a sequence of events. -/
def noticesAll (m : Metadata) (es : List MemberEvent) : List Notice :=
  reportAll absorb notices m es

/-! ### Replay -/

/-- The event that adds an annotation. -/
def annotEvent (a : Annot) : MemberEvent := .annot a.descriptor a.visible (Annot.events a)

/-- The event that adds a type annotation to the list of a flag. The flag of
the annotation itself is not asked. -/
def typeAnnotEvent (visible : Bool) (a : TypeAnnot) : MemberEvent :=
  .typeAnnot a.typeRef a.typePath a.annot.descriptor visible (Annot.events a.annot)

/-- The events that list the metadata: annotations, visible type annotations,
invisible ones, extensions. -/
def events (m : Metadata) : List MemberEvent :=
  m.annots.values.map annotEvent ++
    m.visibleTypeAnnots.toList.map (typeAnnotEvent true) ++
    m.invisibleTypeAnnots.toList.map (typeAnnotEvent false) ++
    m.extensions.toList.map .extension

/-! ### Checks -/

/-- Refuses type annotations at a tier that has none. -/
def inspectTypes (m : Metadata) (t : Tier) (owner : String) : Check Unit :=
  require t .typeAnnots m.hasTypeAnnots owner

/-- Descends into the annotations in order, then into the visible and the
invisible type annotations, each list from its last entry to its first. -/
def inspectInside (m : Metadata) (t : Tier) : Check Unit := do
  m.annots.values.forM (Annot.inspect t)
  m.visibleTypeAnnots.toList.reverse.forM (TypeAnnot.inspect t)
  m.invisibleTypeAnnots.toList.reverse.forM (TypeAnnot.inspect t)

end Metadata

end ClassTree

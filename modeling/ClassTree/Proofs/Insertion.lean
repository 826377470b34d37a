/-
# Storing a part and replaying it

A finished field, method or annotation reaches a class in two ways. It is stored
directly: its policies are rewritten where they stand, down to the innermost
table, and it goes under its key. Or it is replayed into the class: a blank part
is declared and built up event by event, and each part of it is created with the
policy of its place. A normal part arrives in the same state either way
(`ClassDecl.getThenInsert_eq_replay`), whatever the class holds and whether or
not the key was there, and the part that is handed back by a direct store is the
one that stood under the key.

The rewriting pass and the rebuilding pass meet in the copy of the part, which
for a normal part is its rewriting (`FieldDecl.copy_eq_setPolicy` and its
companions).
-/
import ClassTree.Proofs.Normal

namespace ClassTree

namespace ClassDecl

/-- Replaying a field stores its copy. -/
theorem absorb_fieldEvent (k : ClassDecl) (f : FieldDecl) :
    k.absorb f.event = { k with fields := k.fields.insert f.name (f.copy k.policy) } :=
  k.absorb_field f.toFieldHead f.body

/-- Replaying a method stores its copy. -/
theorem absorb_methodEvent (k : ClassDecl) (m : MethodDecl) :
    k.absorb m.event = { k with methods := k.methods.insert m.key (m.copy k.policy) } :=
  k.absorb_method m.toMethodHead m.body

/-- Replaying an annotation stores its copy. -/
theorem absorb_annotEvent (k : ClassDecl) (a : Annot) :
    k.absorb (.member (Metadata.annotEvent a)) =
      { k with
        metadata :=
          { k.metadata with
            annots := k.metadata.annots.insert a.descriptor
              (a.copy k.metadata.policy a.visible) } } :=
  congrArg (fun n => { k with metadata := n })
    (k.metadata.absorb_annot a.descriptor a.visible (Annot.events a))

theorem insertField_eq_absorb (k : ClassDecl) {f : FieldDecl} (h : f.metadata.Normal) :
    k.insertField f = k.absorb f.event := by
  rw [absorb_fieldEvent, FieldDecl.copy_eq_setPolicy h]
  rfl

theorem insertMethod_eq_absorb (k : ClassDecl) {m : MethodDecl} (h : m.Normal) :
    k.insertMethod m = k.absorb m.event := by
  rw [absorb_methodEvent, h.copy_eq_setPolicy]
  rfl

theorem insertAnnot_eq_absorb (k : ClassDecl) {a : Annot} (h : a.Normal) :
    k.insertAnnot a = k.absorb (.member (Metadata.annotEvent a)) := by
  rw [absorb_annotEvent, h.copy_eq_setPolicy]
  rfl

/-- **Storing a normal part is replaying it.** A field, a method or an annotation
that is stored directly leaves the class in the state in which its replay leaves
it, and hands back what stood under its key. -/
theorem getThenInsert_eq_replay (k : ClassDecl) :
    (∀ f : FieldDecl, f.metadata.Normal →
      k.getThenInsertField? f = (k.fields.get? f.name, k.absorb f.event)) ∧
    (∀ m : MethodDecl, m.Normal →
      k.getThenInsertMethod? m = (k.methods.get? m.key, k.absorb m.event)) ∧
    ∀ a : Annot, a.Normal →
      k.getThenInsertAnnot? a =
        (k.metadata.annots.get? a.descriptor, k.absorb (.member (Metadata.annotEvent a))) := by
  refine ⟨fun f hf => ?_, fun m hm => ?_, fun a ha => ?_⟩
  · rw [getThenInsertField?_eq, insertField_eq_absorb k hf]
  · rw [getThenInsertMethod?_eq, insertMethod_eq_absorb k hm]
  · rw [getThenInsertAnnot?_eq, insertAnnot_eq_absorb k ha]

/-- An annotation that holds an array with another one, each of its own policy. -/
def mixedAnnot : Annot :=
  ⟨"LA;", true, ⟨[("v", .array ⟨[.annot ⟨"LB;", false, ⟨[("w", .int 1)], .moveToEnd⟩⟩], .inPlace⟩)],
    .moveToEnd⟩⟩

/-- Metadata with the annotation, and with a type annotation beside it. -/
def mixedMetadata : Metadata where
  annots := ⟨[("LA;", mixedAnnot)], .inPlace⟩
  visibleTypeAnnots := .ofList [⟨0, none, mixedAnnot⟩]
  invisibleTypeAnnots := .absent
  extensions := .absent

def mixedField : FieldDecl := ⟨⟨.empty, "x", "J", none, none⟩, mixedMetadata⟩

def mixedMethod : MethodDecl where
  toMethodHead := ⟨.empty, "m", "()I", none, []⟩
  parameters := .ofList [⟨none, .empty⟩]
  annotDefault := some ⟨[.array ⟨[], .inPlace⟩], .moveToEnd⟩
  metadata := mixedMetadata
  code := some ⟨0, none⟩

/-- A class that has a field `x` before a field `y` and moves replaced entries to
the end. -/
def twoFields : ClassDecl :=
  { blank { replacePolicy := .moveToEnd } with
    fields := ⟨["x", "y"].map fun name =>
      (name, .blank ⟨.empty, name, "I", none, none⟩ .moveToEnd), .moveToEnd⟩ }

/-- The field that was there is handed back, and its name moves to the end. -/
theorem mixed_getThenInsert_eq_replay :
    mixedMetadata.Normal ∧ mixedMethod.Normal ∧ mixedAnnot.Normal ∧
    twoFields.getThenInsertField? mixedField =
      (some (.blank ⟨.empty, "x", "I", none, none⟩ .moveToEnd), twoFields.absorb mixedField.event) ∧
    (twoFields.absorb mixedField.event).fields.keys = ["y", "x"] ∧
    twoFields.getThenInsertMethod? mixedMethod = (none, twoFields.absorb mixedMethod.event) ∧
    twoFields.getThenInsertAnnot? mixedAnnot =
      (none, twoFields.absorb (.member (Metadata.annotEvent mixedAnnot))) := by
  have hannot : mixedAnnot.Normal := ⟨by decide, by decide⟩
  have hmetadata : mixedMetadata.Normal := by
    refine ⟨⟨by decide, by decide, ?_⟩, fun visible a ha => ?_, by decide, by decide⟩
    · exact List.forall_mem_singleton.mpr hannot
    · cases visible with
      | true =>
        cases List.mem_singleton.mp ha
        exact ⟨rfl, hannot⟩
      | false => cases ha
  have hmethod : mixedMethod.Normal := by
    refine ⟨hmetadata, by decide, fun r hr => ?_⟩
    cases hr
    show ValueArray.EveryValue _ _
    decide
  obtain ⟨hfields, hmethods, hannots⟩ := getThenInsert_eq_replay twoFields
  exact ⟨hmetadata, hmethod, hannot, hfields mixedField hmetadata, by decide,
    hmethods mixedMethod hmethod, hannots mixedAnnot hannot⟩

end ClassDecl

end ClassTree

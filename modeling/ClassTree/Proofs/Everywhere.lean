/-
# Properties of everything inside a class

A class holds values at every depth: elements of annotations, items of arrays,
defaults of methods, below the class itself and below its components, fields
and methods. `ElementValue.Everywhere` says that a property holds of a value
and of all values inside it, `ClassDecl.EveryMetadata` and
`ClassDecl.EveryValue` carry properties over a whole class.

The conditions that replays depend on are stated with them: tables list no key
twice (`ClassDecl.Distinct`), entries stand under the keys that they name
(`ClassDecl.OwnKeys`), nested annotations are invisible
(`ClassDecl.NestedInvisible`), type annotations stand in the list of their flag
(`ClassDecl.TypesFiled`), and no floating-point constant is a NaN
(`ClassDecl.NaNFree`). None of them reads a policy or asks whether a list is
present.
-/
import ClassTree.Class.Basic
import ClassTree.Proofs.Filling

namespace ClassTree

/-! ### Values -/

namespace ElementValue

mutual

/-- The property holds of the value and of every value inside it. -/
def Everywhere (P : ElementValue → Prop) : ElementValue → Prop
  | .annot ⟨d, v, ⟨es, q⟩⟩ => P (.annot ⟨d, v, ⟨es, q⟩⟩) ∧ EverywhereEntries P es
  | .array ⟨vs, q⟩ => P (.array ⟨vs, q⟩) ∧ EverywhereItems P vs
  | v => P v

/-- The property holds everywhere in named elements. -/
def EverywhereEntries (P : ElementValue → Prop) : List (String × ElementValue) → Prop
  | [] => True
  | (_, v) :: es => Everywhere P v ∧ EverywhereEntries P es

/-- The property holds everywhere in items. -/
def EverywhereItems (P : ElementValue → Prop) : List ElementValue → Prop
  | [] => True
  | v :: vs => Everywhere P v ∧ EverywhereItems P vs

end

theorem everywhereEntries_iff (P : ElementValue → Prop) : ∀ es : List (String × ElementValue),
    EverywhereEntries P es ↔ ∀ e ∈ es, e.2.Everywhere P
  | [] => by simp [EverywhereEntries]
  | (_, _) :: es => by simp [EverywhereEntries, everywhereEntries_iff P es]

theorem everywhereItems_iff (P : ElementValue → Prop) : ∀ vs : List ElementValue,
    EverywhereItems P vs ↔ ∀ v ∈ vs, v.Everywhere P
  | [] => by simp [EverywhereItems]
  | _ :: vs => by simp [EverywhereItems, everywhereItems_iff P vs]

theorem everywhere_annot (P : ElementValue → Prop) (a : Annot) :
    (annot a).Everywhere P ↔ P (annot a) ∧ ∀ e ∈ a.elements.entries, e.2.Everywhere P := by
  obtain ⟨d, v, ⟨es, q⟩⟩ := a
  rw [Everywhere, everywhereEntries_iff]

theorem everywhere_array (P : ElementValue → Prop) (r : ValueArray) :
    (array r).Everywhere P ↔ P (array r) ∧ ∀ v ∈ r.items, v.Everywhere P := by
  obtain ⟨vs, q⟩ := r
  rw [Everywhere, everywhereItems_iff]

theorem everywhere_and (P Q : ElementValue → Prop) (v : ElementValue) :
    v.Everywhere (fun w => P w ∧ Q w) ↔ v.Everywhere P ∧ v.Everywhere Q := by
  induction v using ElementValue.induct with
  | annot a ih =>
    have h : (∀ e ∈ a.elements.entries, e.2.Everywhere fun w => P w ∧ Q w) ↔
        ∀ e ∈ a.elements.entries, e.2.Everywhere P ∧ e.2.Everywhere Q :=
      forall₂_congr ih
    rw [everywhere_annot, everywhere_annot, everywhere_annot, h]
    simp only [imp_and, forall_and]
    tauto
  | array r ih =>
    have h : (∀ v ∈ r.items, v.Everywhere fun w => P w ∧ Q w) ↔
        ∀ v ∈ r.items, v.Everywhere P ∧ v.Everywhere Q :=
      forall₂_congr ih
    rw [everywhere_array, everywhere_array, everywhere_array, h]
    simp only [imp_and, forall_and]
    tauto
  | _ => exact Iff.rfl

mutual

/-- A decidable property can be decided everywhere in a value. -/
def decEverywhere (P : ElementValue → Prop) [DecidablePred P] :
    (v : ElementValue) → Decidable (v.Everywhere P)
  | .annot ⟨_, _, ⟨es, _⟩⟩ =>
    have := decEverywhereEntries P es
    inferInstanceAs (Decidable (P _ ∧ EverywhereEntries P es))
  | .array ⟨vs, _⟩ =>
    have := decEverywhereItems P vs
    inferInstanceAs (Decidable (P _ ∧ EverywhereItems P vs))
  | .byte _ | .boolean _ | .char _ | .short _ | .int _ | .long _ | .float _ | .double _
  | .string _ | .classLiteral _ | .enum _ _ => inferInstanceAs (Decidable (P _))

def decEverywhereEntries (P : ElementValue → Prop) [DecidablePred P] :
    (es : List (String × ElementValue)) → Decidable (EverywhereEntries P es)
  | [] => inferInstanceAs (Decidable True)
  | (_, v) :: es =>
    have := decEverywhere P v
    have := decEverywhereEntries P es
    inferInstanceAs (Decidable (v.Everywhere P ∧ EverywhereEntries P es))

def decEverywhereItems (P : ElementValue → Prop) [DecidablePred P] :
    (vs : List ElementValue) → Decidable (EverywhereItems P vs)
  | [] => inferInstanceAs (Decidable True)
  | v :: vs =>
    have := decEverywhere P v
    have := decEverywhereItems P vs
    inferInstanceAs (Decidable (v.Everywhere P ∧ EverywhereItems P vs))

end

instance (P : ElementValue → Prop) [DecidablePred P] (v : ElementValue) :
    Decidable (v.Everywhere P) := decEverywhere P v

/-- A nested annotation has no flag. -/
def Invisible : ElementValue → Prop
  | .annot a => a.visible = false
  | _ => True

/-- The value itself is not a NaN. -/
def NotNaN : ElementValue → Prop
  | .float x => x.isNaN = false
  | .double x => x.isNaN = false
  | _ => True

/-- A nested annotation names no element twice. -/
def DistinctNames : ElementValue → Prop
  | .annot a => a.elements.Distinct
  | _ => True

instance : DecidablePred Invisible
  | .annot a => inferInstanceAs (Decidable (a.visible = false))
  | .array _ | .byte _ | .boolean _ | .char _ | .short _ | .int _ | .long _ | .float _ | .double _
  | .string _ | .classLiteral _ | .enum _ _ => inferInstanceAs (Decidable True)

instance : DecidablePred NotNaN
  | .float x => inferInstanceAs (Decidable (x.isNaN = false))
  | .double x => inferInstanceAs (Decidable (x.isNaN = false))
  | .annot _ | .array _ | .byte _ | .boolean _ | .char _ | .short _ | .int _ | .long _
  | .string _ | .classLiteral _ | .enum _ _ => inferInstanceAs (Decidable True)

instance : DecidablePred DistinctNames
  | .annot a => inferInstanceAs (Decidable a.elements.Distinct)
  | .array _ | .byte _ | .boolean _ | .char _ | .short _ | .int _ | .long _ | .float _ | .double _
  | .string _ | .classLiteral _ | .enum _ _ => inferInstanceAs (Decidable True)

end ElementValue

/-- The constant is not a NaN. -/
def Constant.NotNaN : Constant → Prop
  | .float x => x.isNaN = false
  | .double x => x.isNaN = false
  | _ => True

instance : DecidablePred Constant.NotNaN
  | .float x => inferInstanceAs (Decidable (x.isNaN = false))
  | .double x => inferInstanceAs (Decidable (x.isNaN = false))
  | .int _ | .long _ | .string _ => inferInstanceAs (Decidable True)

/-! ### Annotations and metadata -/

/-- The property holds of every value inside the annotation. -/
def Annot.EveryValue (P : ElementValue → Prop) (a : Annot) : Prop :=
  ∀ e ∈ a.elements.entries, e.2.Everywhere P

/-- The property holds of every value inside the array. -/
def ValueArray.EveryValue (P : ElementValue → Prop) (r : ValueArray) : Prop :=
  ∀ v ∈ r.items, v.Everywhere P

instance (P : ElementValue → Prop) [DecidablePred P] : DecidablePred (Annot.EveryValue P) :=
  fun a => inferInstanceAs (Decidable (∀ e ∈ a.elements.entries, e.2.Everywhere P))

instance (P : ElementValue → Prop) [DecidablePred P] : DecidablePred (ValueArray.EveryValue P) :=
  fun r => inferInstanceAs (Decidable (∀ v ∈ r.items, v.Everywhere P))

theorem Annot.everyValue_and (P Q : ElementValue → Prop) (a : Annot) :
    a.EveryValue (fun v => P v ∧ Q v) ↔ a.EveryValue P ∧ a.EveryValue Q := by
  unfold EveryValue
  simp only [ElementValue.everywhere_and, imp_and, forall_and]

theorem ValueArray.everyValue_and (P Q : ElementValue → Prop) (r : ValueArray) :
    r.EveryValue (fun v => P v ∧ Q v) ↔ r.EveryValue P ∧ r.EveryValue Q := by
  unfold EveryValue
  simp only [ElementValue.everywhere_and, imp_and, forall_and]

namespace Metadata

/-- The property holds of every annotation and of every type annotation's. -/
def EveryAnnot (Q : Annot → Prop) (m : Metadata) : Prop :=
  (∀ a ∈ m.annots.values, Q a) ∧ ∀ visible, ∀ a ∈ (m.typeAnnots visible).toList, Q a.annot

instance (Q : Annot → Prop) [DecidablePred Q] : DecidablePred (EveryAnnot Q) := fun m =>
  inferInstanceAs (Decidable (_ ∧ ∀ visible, ∀ a ∈ (m.typeAnnots visible).toList, Q a.annot))

theorem everyAnnot_everyValue_and (P Q : ElementValue → Prop) (m : Metadata) :
    m.EveryAnnot (Annot.EveryValue fun v => P v ∧ Q v) ↔
      m.EveryAnnot (Annot.EveryValue P) ∧ m.EveryAnnot (Annot.EveryValue Q) := by
  unfold EveryAnnot
  simp only [Annot.everyValue_and, imp_and, forall_and]
  tauto

/-- Every type annotation stands in the list of its flag. -/
def TypesFiled (m : Metadata) : Prop :=
  ∀ visible, ∀ a ∈ (m.typeAnnots visible).toList, a.annot.visible = visible

instance : DecidablePred TypesFiled := fun m =>
  inferInstanceAs (Decidable (∀ visible, ∀ a ∈ (m.typeAnnots visible).toList, _))

end Metadata

/-! ### Classes -/

namespace ClassDecl

/-- The metadata of the class and of its components, fields and methods. -/
def allMetadata (c : ClassDecl) : List Metadata :=
  c.metadata :: (c.components.toList.map (·.metadata) ++ c.fields.values.map (·.metadata) ++
    c.methods.values.map (·.metadata))

/-- The property holds of the metadata of the class and of its members. -/
def EveryMetadata (Q : Metadata → Prop) (c : ClassDecl) : Prop := ∀ m ∈ c.allMetadata, Q m

/-- The property holds of every value in the class, at any depth. -/
def EveryValue (P : ElementValue → Prop) (c : ClassDecl) : Prop :=
  c.EveryMetadata (·.EveryAnnot (Annot.EveryValue P)) ∧
    ∀ m ∈ c.methods.values, ∀ r ∈ m.annotDefault, ValueArray.EveryValue P r

instance (Q : Metadata → Prop) [DecidablePred Q] : DecidablePred (EveryMetadata Q) := fun c =>
  inferInstanceAs (Decidable (∀ m ∈ c.allMetadata, Q m))

instance (P : ElementValue → Prop) [DecidablePred P] : DecidablePred (EveryValue P) := fun c =>
  inferInstanceAs (Decidable (_ ∧ ∀ m ∈ c.methods.values, ∀ r ∈ m.annotDefault, _))

theorem everyMetadata_iff (Q : Metadata → Prop) (c : ClassDecl) :
    c.EveryMetadata Q ↔ Q c.metadata ∧ (∀ d ∈ c.components.toList, Q d.metadata) ∧
      (∀ f ∈ c.fields.values, Q f.metadata) ∧ ∀ m ∈ c.methods.values, Q m.metadata := by
  unfold EveryMetadata allMetadata
  simp only [List.forall_mem_cons, List.forall_mem_append, List.forall_mem_map, and_assoc]

theorem everyMetadata_and (Q R : Metadata → Prop) (c : ClassDecl) :
    c.EveryMetadata (fun m => Q m ∧ R m) ↔ c.EveryMetadata Q ∧ c.EveryMetadata R :=
  forall₂_and

theorem everyValue_and (P Q : ElementValue → Prop) (c : ClassDecl) :
    c.EveryValue (fun v => P v ∧ Q v) ↔ c.EveryValue P ∧ c.EveryValue Q := by
  have hmeta : c.EveryMetadata (·.EveryAnnot (Annot.EveryValue fun v => P v ∧ Q v)) ↔
      c.EveryMetadata (·.EveryAnnot (Annot.EveryValue P)) ∧
        c.EveryMetadata (·.EveryAnnot (Annot.EveryValue Q)) := by
    rw [← everyMetadata_and]
    exact forall₂_congr fun m _ => m.everyAnnot_everyValue_and P Q
  have hdefaults : (∀ m ∈ c.methods.values, ∀ r ∈ m.annotDefault,
      ValueArray.EveryValue (fun v => P v ∧ Q v) r) ↔
        (∀ m ∈ c.methods.values, ∀ r ∈ m.annotDefault, ValueArray.EveryValue P r) ∧
          ∀ m ∈ c.methods.values, ∀ r ∈ m.annotDefault, ValueArray.EveryValue Q r := by
    simp only [ValueArray.everyValue_and, forall_and]
  unfold EveryValue
  rw [hmeta, hdefaults]
  tauto

/-- No table of the class, at any depth, lists a key twice. -/
structure Distinct (c : ClassDecl) : Prop where
  fields : c.fields.Distinct
  methods : c.methods.Distinct
  annots : c.EveryMetadata (·.annots.Distinct)
  elements : c.EveryMetadata (·.EveryAnnot (·.elements.Distinct))
  values : c.EveryValue ElementValue.DistinctNames

/-- Fields, methods and annotations stand under the keys that they name. -/
def OwnKeys (c : ClassDecl) : Prop :=
  c.fields.KeyedBy (·.name) ∧ c.methods.KeyedBy (·.key) ∧
    c.EveryMetadata (·.annots.KeyedBy (·.descriptor))

/-- Every annotation inside an annotation, an array or a default is invisible. -/
def NestedInvisible (c : ClassDecl) : Prop := c.EveryValue ElementValue.Invisible

/-- Every type annotation of the class and of its members stands in the list
of its flag. -/
def TypesFiled (c : ClassDecl) : Prop := c.EveryMetadata Metadata.TypesFiled

/-- No field constant and no annotation value, at any depth, is a NaN. -/
def NaNFree (c : ClassDecl) : Prop :=
  (∀ f ∈ c.fields.values, ∀ k ∈ f.value, k.NotNaN) ∧ c.EveryValue ElementValue.NotNaN

instance : DecidablePred Distinct := fun c =>
  decidable_of_iff (c.fields.Distinct ∧ c.methods.Distinct ∧ c.EveryMetadata (·.annots.Distinct) ∧
      c.EveryMetadata (·.EveryAnnot (·.elements.Distinct)) ∧ c.EveryValue ElementValue.DistinctNames)
    ⟨fun ⟨hf, hm, ha, he, hv⟩ => ⟨hf, hm, ha, he, hv⟩, fun ⟨hf, hm, ha, he, hv⟩ => ⟨hf, hm, ha, he, hv⟩⟩

instance : DecidablePred OwnKeys := fun _ => inferInstanceAs (Decidable (_ ∧ _ ∧ _))

instance : DecidablePred NestedInvisible := fun c =>
  inferInstanceAs (Decidable (c.EveryValue ElementValue.Invisible))

instance : DecidablePred TypesFiled := fun c =>
  inferInstanceAs (Decidable (c.EveryMetadata Metadata.TypesFiled))

instance : DecidablePred NaNFree := fun c =>
  inferInstanceAs (Decidable ((∀ f ∈ c.fields.values, ∀ k ∈ f.value, k.NotNaN) ∧ _))

end ClassDecl

end ClassTree

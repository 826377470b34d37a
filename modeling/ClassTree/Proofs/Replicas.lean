/-
# Replicas

What a replay makes of a part, said without a replay. The replica of a part is the
part as it stands, with the policy of its new place at every depth. Three things
are not carried over: a nested annotation has no flag, a type annotation has the
flag of the list in which it stands, and a list without entries is absent. Heads,
constants, elements, items, parameters, body handles and directives stay.

If no table lists a key twice and annotations stand under their own descriptors,
the copy that the events of a part build is its replica
(`ElementValue.copy_eq_replica`, `Metadata.copy_eq_replica` and their companions).

Key definitions: `AttrList.trimmed`, `ElementValue.replica`, `Annot.replica`,
`Metadata.replica`, `FieldDecl.replica`, `MethodDecl.replica`, `ModuleDecl.replica`.
-/
import ClassTree.Proofs.Copies
import ClassTree.Proofs.Everywhere
import ClassTree.Proofs.Placement

namespace ClassTree

namespace AttrList

variable {α : Type u}

/-- The list, absent if it has no entries. -/
def trimmed (l : AttrList α) : AttrList α := if l.isEmpty then absent else l

theorem pushAll_absent_toList (l : AttrList α) : absent.pushAll l.toList = l.trimmed := by
  rw [pushAll_eq_extend]
  obtain ⟨_ | _ | ⟨x, xs⟩⟩ := l <;> rfl

theorem pushAll_absent_map {l : AttrList α} {f g : α → α} (h : ∀ x ∈ l.toList, f x = g x) :
    absent.pushAll (l.toList.map f) = (l.map g).trimmed := by
  rw [List.map_congr_left h, ← toList_map, pushAll_absent_toList]

end AttrList

theorem Table.map_congr {κ : Type u} {ν : Type v} {t : Table κ ν} {f g : ν → ν}
    (h : ∀ v ∈ t.values, f v = g v) : t.map f = t.map g := by
  have hentries : t.entries.map (fun e => (e.1, f e.2)) = t.entries.map fun e => (e.1, g e.2) := by
    refine List.map_congr_left fun e he => ?_
    rw [h e.2 (List.mem_map_of_mem he)]
  exact congrArg (Table.mk · t.policy) hentries

/-! ### Values and annotations -/

namespace ElementValue

mutual

/-- The value with a policy at every depth, and its annotations without a flag. -/
def replica (p : ReplacePolicy) : ElementValue → ElementValue
  | .annot ⟨d, _, ⟨es, _⟩⟩ => .annot ⟨d, false, ⟨replicaEntries p es, p⟩⟩
  | .array ⟨vs, _⟩ => .array ⟨replicaItems p vs, p⟩
  | v => v

/-- The same names with replicas. -/
def replicaEntries (p : ReplacePolicy) :
    List (String × ElementValue) → List (String × ElementValue)
  | [] => []
  | (k, v) :: es => (k, replica p v) :: replicaEntries p es

def replicaItems (p : ReplacePolicy) : List ElementValue → List ElementValue
  | [] => []
  | v :: vs => replica p v :: replicaItems p vs

end

theorem replicaEntries_eq_map (p : ReplacePolicy) :
    ∀ es, replicaEntries p es = es.map fun e => (e.1, replica p e.2)
  | [] => rfl
  | (_, _) :: es => by simp [replicaEntries, replicaEntries_eq_map p es]

theorem replicaItems_eq_map (p : ReplacePolicy) : ∀ vs, replicaItems p vs = vs.map (replica p)
  | [] => rfl
  | _ :: vs => by simp [replicaItems, replicaItems_eq_map p vs]

end ElementValue

/-- The annotation with a flag, and with replicas of its elements. -/
def Annot.replica (p : ReplacePolicy) (visible : Bool) (a : Annot) : Annot :=
  ⟨a.descriptor, visible, (a.elements.map (ElementValue.replica p)).setPolicy p⟩

/-- The array with replicas of its items. -/
def ValueArray.replica (p : ReplacePolicy) (r : ValueArray) : ValueArray :=
  ⟨r.items.map (ElementValue.replica p), p⟩

namespace ElementValue

theorem replica_annot (p : ReplacePolicy) (a : Annot) :
    (annot a).replica p = annot (Annot.replica p false a) := by
  obtain ⟨d, v, ⟨es, q⟩⟩ := a
  rw [replica, replicaEntries_eq_map]
  rfl

theorem replica_array (p : ReplacePolicy) (r : ValueArray) :
    (array r).replica p = array (ValueArray.replica p r) := by
  obtain ⟨vs, q⟩ := r
  rw [replica, replicaItems_eq_map]
  rfl

end ElementValue

theorem Annot.copy_eq_replica_of {a : Annot} {p : ReplacePolicy} (ha : a.elements.Distinct)
    (h : ∀ e ∈ a.elements.entries, e.2.copy p = e.2.replica p) (visible : Bool) :
    a.copy p visible = Annot.replica p visible a := by
  have hvalues : ∀ v ∈ a.elements.values, v.copy p = v.replica p := List.forall_mem_map.mpr h
  rw [Annot.copy_eq_of_distinct ha, Table.map_congr hvalues]
  rfl

theorem ValueArray.copy_eq_replica_of {r : ValueArray} {p : ReplacePolicy}
    (h : ∀ v ∈ r.items, v.copy p = v.replica p) : r.copy p = ValueArray.replica p r := by
  rw [ValueArray.copy_eq, List.map_congr_left h]
  rfl

/-- **The copy of a value is its replica.** -/
theorem ElementValue.copy_eq_replica (p : ReplacePolicy) {v : ElementValue} :
    v.Everywhere DistinctNames → v.copy p = v.replica p := by
  induction v using ElementValue.induct with
  | annot a ih =>
    intro h
    obtain ⟨hnames, hvalues⟩ := (everywhere_annot DistinctNames a).mp h
    rw [replica_annot, copy, Annot.copy_eq_replica_of hnames fun e he => ih e he (hvalues e he)]
  | array r ih =>
    intro h
    have hitems := ((everywhere_array DistinctNames r).mp h).2
    rw [replica_array, copy, ValueArray.copy_eq_replica_of fun v hv => ih v hv (hitems v hv)]
  | _ => exact fun _ => rfl

theorem Annot.copy_eq_replica {a : Annot} (ha : a.elements.Distinct)
    (hv : a.EveryValue ElementValue.DistinctNames) (p : ReplacePolicy) (visible : Bool) :
    a.copy p visible = Annot.replica p visible a :=
  Annot.copy_eq_replica_of ha (fun e he => ElementValue.copy_eq_replica p (hv e he)) visible

theorem ValueArray.copy_eq_replica {r : ValueArray} (hr : r.EveryValue ElementValue.DistinctNames)
    (p : ReplacePolicy) : r.copy p = ValueArray.replica p r :=
  ValueArray.copy_eq_replica_of fun v hv => ElementValue.copy_eq_replica p (hr v hv)

/-! ### Metadata -/

/-- The type annotation with the flag of its list. -/
def TypeAnnot.replica (p : ReplacePolicy) (visible : Bool) (a : TypeAnnot) : TypeAnnot :=
  { a with annot := Annot.replica p visible a.annot }

namespace Metadata

/-- The annotation with its own flag. -/
def replicaAnnot (p : ReplacePolicy) (a : Annot) : Annot := Annot.replica p a.visible a

/-- The metadata with replicas of all annotations. -/
def replica (p : ReplacePolicy) (m : Metadata) : Metadata where
  annots := (m.annots.map (replicaAnnot p)).setPolicy p
  visibleTypeAnnots := (m.visibleTypeAnnots.map (TypeAnnot.replica p true)).trimmed
  invisibleTypeAnnots := (m.invisibleTypeAnnots.map (TypeAnnot.replica p false)).trimmed
  extensions := m.extensions.trimmed

/-- No table of the metadata, at any depth, lists a key twice, and annotations
stand under their descriptors. -/
structure Tidy (m : Metadata) : Prop where
  distinct : m.annots.Distinct
  keyed : m.annots.KeyedBy (·.descriptor)
  names : m.EveryAnnot (·.elements.Distinct)
  values : m.EveryAnnot (Annot.EveryValue ElementValue.DistinctNames)

namespace Tidy

variable {m : Metadata} (h : m.Tidy) (p : ReplacePolicy)
include h

theorem copyAnnot_eq_replica : ∀ a ∈ m.annots.values, copyAnnot p a = replicaAnnot p a :=
  fun a ha => Annot.copy_eq_replica (h.names.1 a ha) (h.values.1 a ha) p a.visible

theorem typeAnnot_copy_eq_replica (visible : Bool) : ∀ a ∈ (m.typeAnnots visible).toList,
    TypeAnnot.copy p visible a = TypeAnnot.replica p visible a := by
  intro a ha
  unfold TypeAnnot.copy TypeAnnot.replica
  rw [Annot.copy_eq_replica (h.names.2 visible a ha) (h.values.2 visible a ha)]

/-- **The copy of metadata is its replica.** -/
theorem copy_eq_replica : m.copy p = m.replica p := by
  have hannots : (Table.empty p).insertAll (m.annots.map (replicaAnnot p)).entries =
      (m.annots.map (replicaAnnot p)).setPolicy p :=
    Table.insertAll_empty_of_nodup (h.distinct.map _) p
  unfold Metadata.copy
  rw [absorbAll_events, h.keyed.rekeyed_values, policy_blank,
    Table.map_congr (h.copyAnnot_eq_replica p)]
  unfold replica
  congr 1
  · exact AttrList.pushAll_absent_map (h.typeAnnot_copy_eq_replica p true)
  · exact AttrList.pushAll_absent_map (h.typeAnnot_copy_eq_replica p false)
  · exact AttrList.pushAll_absent_toList _

end Tidy

end Metadata

/-! ### Members and modules -/

/-- The component with a replica of its metadata. -/
def ComponentDecl.replica (p : ReplacePolicy) (c : ComponentDecl) : ComponentDecl :=
  { c with metadata := c.metadata.replica p }

/-- The field with a replica of its metadata. -/
def FieldDecl.replica (p : ReplacePolicy) (f : FieldDecl) : FieldDecl :=
  { f with metadata := f.metadata.replica p }

/-- The method with its parameters and replicas of its default and its metadata. -/
def MethodDecl.replica (p : ReplacePolicy) (m : MethodDecl) : MethodDecl :=
  { m with
    parameters := m.parameters.trimmed
    annotDefault := m.annotDefault.map (ValueArray.replica p)
    metadata := m.metadata.replica p }

/-- The module with all its directives. -/
def ModuleDecl.replica (m : ModuleDecl) : ModuleDecl :=
  { m with
    packages := m.packages.trimmed
    requires := m.requires.trimmed
    exports := m.exports.trimmed
    opens := m.opens.trimmed
    uses := m.uses.trimmed
    provides := m.provides.trimmed }

theorem ComponentDecl.copy_eq_replica {c : ComponentDecl} (h : c.metadata.Tidy)
    (p : ReplacePolicy) : c.copy p = c.replica p := by
  rw [ComponentDecl.copy_eq, h.copy_eq_replica]
  rfl

theorem FieldDecl.copy_eq_replica {f : FieldDecl} (h : f.metadata.Tidy) (p : ReplacePolicy) :
    f.copy p = f.replica p := by
  rw [FieldDecl.copy_eq, h.copy_eq_replica]
  rfl

theorem MethodDecl.copy_eq_replica {m : MethodDecl} (h : m.metadata.Tidy)
    (hdefault : ∀ r ∈ m.annotDefault, ValueArray.EveryValue ElementValue.DistinctNames r)
    (p : ReplacePolicy) : m.copy p = m.replica p := by
  have hcopy : m.annotDefault.map (ValueArray.copy p) =
      m.annotDefault.map (ValueArray.replica p) :=
    Option.map_congr fun r hr => ValueArray.copy_eq_replica (hdefault r hr) p
  rw [MethodDecl.copy_eq, hcopy, h.copy_eq_replica, AttrList.pushAll_absent_toList]
  rfl

/-- Every module, whatever it holds. -/
theorem ModuleDecl.copy_eq_replica (m : ModuleDecl) : m.copy = m.replica := by
  rw [ModuleDecl.copy_eq]
  simp only [AttrList.pushAll_absent_toList]
  rfl

theorem ClassDecl.Distinct.tidy {c : ClassDecl} (hc : c.Distinct) (hk : c.OwnKeys) :
    c.EveryMetadata Metadata.Tidy :=
  fun m hm => ⟨hc.annots m hm, hk.2.2 m hm, hc.elements m hm, hc.values.1 m hm⟩

end ClassTree

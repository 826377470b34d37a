/-
# Replay brings a class into normal form

A class can be edited into states that no replay builds: entries under keys that
they do not name, nested annotations with a flag, type annotations in the wrong
list, lists that were emptied, policies of all kinds. A replay leaves none of
this behind. What it builds is normal: tables list no key twice and entries under
their own keys, nested annotations are invisible, type annotations stand in the
list of their flag, and a list is absent or has entries
(`ClassDecl.normal_replayed`).

A normal part is copied as it is; only the policies become those of its new
place (`Metadata.Normal.copy_eq_setPolicy` and its companions). So one replay
reaches a fixed point, under either policy: a second one changes nothing but the
configuration and the policies, and is silent (`ClassDecl.replay_normalizes`).
Nothing is asked of the class that is replayed first.

Key definitions: `AttrList.Tight`, `ElementValue.Normal`, `Annot.Normal`,
`Metadata.Normal`, `MethodDecl.Normal`, `ClassDecl.Normal`,
`ClassDecl.setConfig`, `ClassDecl.replayed`.
-/
import ClassTree.Proofs.Contents
import ClassTree.Proofs.Edits
import ClassTree.Proofs.Pruning

namespace ClassTree

/-! ### Lists and tables -/

namespace AttrList

variable {α : Type u}

/-- Absent, or present with entries. -/
def Tight (l : AttrList α) : Prop := l.isPresent = true → l.isEmpty = false

instance : DecidablePred (Tight (α := α)) := fun l =>
  inferInstanceAs (Decidable (l.isPresent = true → l.isEmpty = false))

theorem tight_pushAll_absent (xs : List α) : (absent.pushAll xs).Tight := by
  rw [pushAll_eq_extend]
  cases xs with
  | nil => exact fun h => h.symm
  | cons x xs => exact fun _ => rfl

/-- A tight list is filled from nothing with its own entries. -/
theorem Tight.pushAll_toList {l : AttrList α} (h : l.Tight) : absent.pushAll l.toList = l := by
  rw [pushAll_eq_extend]
  obtain ⟨_ | _ | ⟨x, xs⟩⟩ := l
  · rfl
  · exact absurd (h rfl) Bool.noConfusion
  · rfl

theorem Tight.pushAll_map {l : AttrList α} (h : l.Tight) {f g : α → α}
    (hfg : ∀ x ∈ l.toList, f x = g x) : absent.pushAll (l.toList.map f) = l.map g := by
  rw [List.map_congr_left hfg]
  have hmap : (l.map g).Tight := by
    intro hp
    rw [isPresent_map] at hp
    simpa [isEmpty] using h hp
  simpa using hmap.pushAll_toList

end AttrList

namespace Table

variable {κ : Type u} {ν : Type v} [DecidableEq κ] {key : ν → κ} {Q : ν → Prop}

theorem Holds.insertAll {t : Table κ ν} (h : t.Holds key Q) {es : List (κ × ν)}
    (hes : ∀ e ∈ es, e.1 = key e.2 ∧ Q e.2) : (t.insertAll es).Holds key Q := by
  induction es generalizing t with
  | nil => exact h
  | cons e es ih =>
    rw [List.forall_mem_cons] at hes
    exact ih (h.insert hes.1.1 hes.1.2) hes.2

/-- Whatever is replayed into an empty table, the entries end under their own
keys. -/
theorem holds_insertAll_rekeyed {build : ν → ν} (hkey : ∀ v, key (build v) = key v)
    (hQ : ∀ v, Q (build v)) (p : ReplacePolicy) (vs : List ν) :
    ((empty p).insertAll (rekeyed key build vs)).Holds key Q := by
  refine (holds_empty key Q p).insertAll fun e he => ?_
  obtain ⟨v, -, rfl⟩ := List.mem_map.mp he
  exact ⟨(hkey v).symm, hQ v⟩

/-- A table whose entries stand under their own keys is filled from nothing as
it is, entry by entry. -/
theorem Holds.insertAll_empty {t : Table κ ν} (h : t.Holds key Q) {build edit : ν → ν}
    (hedit : ∀ v, Q v → build v = edit v) (p : ReplacePolicy) :
    (empty p).insertAll (rekeyed key build t.values) = (t.map edit).setPolicy p := by
  have hmap : (t.map build).entries = (t.map edit).entries :=
    List.map_congr_left fun e he => by rw [hedit e.2 (h.value he)]
  rw [h.keyed.rekeyed_values, insertAll_empty_of_nodup (h.distinct.map build) p, hmap]
  rfl

end Table

/-! ### Values and annotations -/

namespace ElementValue

/-- The value, itself, is no visible annotation, and it names no element twice. -/
def NormalHere (v : ElementValue) : Prop := v.Invisible ∧ v.DistinctNames

/-- The value is normal at every depth. -/
def Normal (v : ElementValue) : Prop := v.Everywhere NormalHere

instance : DecidablePred NormalHere := fun v =>
  inferInstanceAs (Decidable (v.Invisible ∧ v.DistinctNames))

instance : DecidablePred Normal := fun v => inferInstanceAs (Decidable (v.Everywhere NormalHere))

end ElementValue

/-- No element is named twice, and all of them are normal. The flag is free. -/
structure Annot.Normal (a : Annot) : Prop where
  names : a.elements.Distinct
  values : a.EveryValue ElementValue.NormalHere

/-- All items are normal. -/
def ValueArray.Normal (r : ValueArray) : Prop := r.EveryValue ElementValue.NormalHere

namespace ElementValue

theorem normal_annot_iff (a : Annot) : (annot a).Normal ↔ a.visible = false ∧ Annot.Normal a := by
  refine (everywhere_annot NormalHere a).trans ?_
  constructor
  · rintro ⟨⟨hvisible, hnames⟩, hvalues⟩
    exact ⟨hvisible, hnames, hvalues⟩
  · rintro ⟨hvisible, hnames, hvalues⟩
    exact ⟨⟨hvisible, hnames⟩, hvalues⟩

theorem normal_array_iff (r : ValueArray) : (array r).Normal ↔ ValueArray.Normal r := by
  refine (everywhere_array NormalHere r).trans ?_
  exact and_iff_right ⟨trivial, trivial⟩

end ElementValue

/-- An annotation with normal copies of its elements has a normal copy. -/
theorem Annot.normal_copy_of {a : Annot} {p : ReplacePolicy}
    (h : ∀ e ∈ a.elements.entries, (e.2.copy p).Normal) (visible : Bool) :
    (a.copy p visible).Normal := by
  rw [Annot.copy_eq]
  refine ⟨(Table.distinct_empty p).insertAll _, fun e he => ?_⟩
  rcases Table.mem_entries_insertAll he with he | he
  · cases he
  · obtain ⟨e', he', rfl⟩ := List.mem_map.mp he
    exact h e' he'

theorem ValueArray.normal_copy_of {r : ValueArray} {p : ReplacePolicy}
    (h : ∀ v ∈ r.items, (v.copy p).Normal) : (r.copy p).Normal := by
  rw [ValueArray.copy_eq]
  intro v hv
  obtain ⟨w, hw, rfl⟩ := List.mem_map.mp hv
  exact h w hw

/-- Every copy of a value is normal, whatever the value. -/
theorem ElementValue.normal_copy (p : ReplacePolicy) (v : ElementValue) : (v.copy p).Normal := by
  induction v using ElementValue.induct with
  | annot a ih =>
    have hflag : (a.copy p false).visible = false := by rw [Annot.copy_eq]
    exact (normal_annot_iff _).mpr ⟨hflag, Annot.normal_copy_of ih false⟩
  | array r ih => exact (normal_array_iff _).mpr (ValueArray.normal_copy_of ih)
  | _ => exact ⟨trivial, trivial⟩

theorem Annot.normal_copy (p : ReplacePolicy) (visible : Bool) (a : Annot) :
    (a.copy p visible).Normal :=
  Annot.normal_copy_of (fun e _ => e.2.normal_copy p) visible

theorem ValueArray.normal_copy (p : ReplacePolicy) (r : ValueArray) : (r.copy p).Normal :=
  ValueArray.normal_copy_of fun v _ => v.normal_copy p

/-- Elements with different names that are copied as they are leave an
annotation that is copied as it is. -/
theorem Annot.copy_eq_setPolicy_of {a : Annot} {p : ReplacePolicy} (hnames : a.elements.Distinct)
    (h : ∀ e ∈ a.elements.entries, e.2.copy p = e.2.setPolicy p) :
    a.copy p a.visible = Annot.setPolicy p a := by
  have hentries : (a.elements.map (ElementValue.copy p)).entries =
      ElementValue.setPolicyEntries p a.elements.entries := by
    rw [ElementValue.setPolicyEntries_eq_map]
    exact List.map_congr_left fun e he => by rw [h e he]
  rw [Annot.copy_eq_of_distinct hnames, Table.setPolicy, hentries]
  rfl

theorem ValueArray.copy_eq_setPolicy_of {r : ValueArray} {p : ReplacePolicy}
    (h : ∀ v ∈ r.items, v.copy p = v.setPolicy p) : r.copy p = ValueArray.setPolicy p r := by
  rw [ValueArray.copy_eq, List.map_congr_left h, ← ElementValue.setPolicyItems_eq_map]
  rfl

/-- **A normal value is copied as it is,** under the policy of its new place. -/
theorem ElementValue.Normal.copy_eq_setPolicy (p : ReplacePolicy) {v : ElementValue} :
    v.Normal → v.copy p = v.setPolicy p := by
  induction v using ElementValue.induct with
  | annot a ih =>
    intro h
    obtain ⟨hflag, hnames, hvalues⟩ := (normal_annot_iff a).mp h
    have hcopy : a.copy p a.visible = Annot.setPolicy p a :=
      Annot.copy_eq_setPolicy_of hnames fun e he => ih e he (hvalues e he)
    rw [setPolicy_annot, ← hcopy, hflag]
    rfl
  | array r ih =>
    intro h
    have hitems := (normal_array_iff r).mp h
    have hcopy : r.copy p = ValueArray.setPolicy p r :=
      ValueArray.copy_eq_setPolicy_of fun v hv => ih v hv (hitems v hv)
    rw [setPolicy_array, ← hcopy]
    rfl
  | _ => exact fun _ => rfl

theorem Annot.Normal.copy_eq_setPolicy {a : Annot} (h : a.Normal) (p : ReplacePolicy) :
    a.copy p a.visible = Annot.setPolicy p a :=
  Annot.copy_eq_setPolicy_of h.names fun e he =>
    ElementValue.Normal.copy_eq_setPolicy p (h.values e he)

theorem ValueArray.Normal.copy_eq_setPolicy {r : ValueArray} (h : r.Normal) (p : ReplacePolicy) :
    r.copy p = ValueArray.setPolicy p r :=
  ValueArray.copy_eq_setPolicy_of fun v hv => ElementValue.Normal.copy_eq_setPolicy p (h v hv)

/-! ### Metadata -/

/-- Annotations stand under their own descriptors and type annotations in the
list of their flag, all of them are normal, and no list was emptied. -/
structure Metadata.Normal (m : Metadata) : Prop where
  annots : m.annots.Holds (·.descriptor) Annot.Normal
  types : ∀ visible, ∀ a ∈ (m.typeAnnots visible).toList, a.annot.visible = visible ∧ a.annot.Normal
  typeLists : ∀ visible, (m.typeAnnots visible).Tight
  extensions : m.extensions.Tight

namespace Metadata

/-- **Every copy of metadata is normal,** whatever the metadata. -/
theorem normal_copy (p : ReplacePolicy) (m : Metadata) : (m.copy p).Normal := by
  have htypes : ∀ visible, (m.copy p).typeAnnots visible =
      AttrList.absent.pushAll ((m.typeAnnots visible).toList.map (TypeAnnot.copy p visible)) := by
    intro visible
    unfold copy
    rw [absorbAll_events]
    cases visible <;> rfl
  constructor
  case annots =>
    unfold copy
    rw [absorbAll_events]
    exact Table.holds_insertAll_rekeyed (descriptor_copyAnnot p)
      (fun a => a.normal_copy p a.visible) p _
  case types =>
    intro visible a ha
    rw [htypes, AttrList.toList_pushAll, AttrList.toList_absent, List.nil_append] at ha
    obtain ⟨b, -, rfl⟩ := List.mem_map.mp ha
    have hflag : (b.annot.copy p visible).visible = visible := by rw [Annot.copy_eq]
    exact ⟨hflag, b.annot.normal_copy p visible⟩
  case typeLists =>
    intro visible
    rw [htypes]
    exact AttrList.tight_pushAll_absent _
  case extensions =>
    unfold copy
    rw [absorbAll_events]
    exact AttrList.tight_pushAll_absent _

/-- **Normal metadata is copied as it is,** under the policy of its new place. -/
theorem Normal.copy_eq_setPolicy {m : Metadata} (h : m.Normal) (p : ReplacePolicy) :
    m.copy p = m.setPolicy p := by
  have htypes : ∀ visible, AttrList.absent.pushAll
      ((m.typeAnnots visible).toList.map (TypeAnnot.copy p visible)) =
        (m.typeAnnots visible).map fun a => { a with annot := Annot.setPolicy p a.annot } := by
    intro visible
    refine (h.typeLists visible).pushAll_map fun a ha => ?_
    obtain ⟨hflag, hnormal⟩ := h.types visible a ha
    rw [TypeAnnot.copy, ← hflag, hnormal.copy_eq_setPolicy]
  have hannots := h.annots.insertAll_empty (fun a ha => ha.copy_eq_setPolicy p) p
  unfold copy
  rw [absorbAll_events]
  unfold setPolicy
  congr 1
  · exact htypes true
  · exact htypes false
  · exact h.extensions.pushAll_toList

end Metadata

/-! ### Members and modules -/

/-- The interior is normal, and no list was emptied. -/
structure MethodDecl.Normal (m : MethodDecl) : Prop where
  metadata : m.metadata.Normal
  parameters : m.parameters.Tight
  annotDefault : ∀ r ∈ m.annotDefault, ValueArray.Normal r

/-- No list was emptied. -/
structure ModuleDecl.Normal (m : ModuleDecl) : Prop where
  packages : m.packages.Tight
  requires : m.requires.Tight
  exports : m.exports.Tight
  opens : m.opens.Tight
  uses : m.uses.Tight
  provides : m.provides.Tight

/-- Gives a policy to everything inside the component. -/
def ComponentDecl.setPolicy (p : ReplacePolicy) (c : ComponentDecl) : ComponentDecl :=
  { c with metadata := c.metadata.setPolicy p }

theorem ComponentDecl.copy_eq_setPolicy {c : ComponentDecl} (h : c.metadata.Normal)
    (p : ReplacePolicy) : c.copy p = c.setPolicy p := by
  rw [ComponentDecl.copy_eq, h.copy_eq_setPolicy]
  rfl

theorem FieldDecl.copy_eq_setPolicy {f : FieldDecl} (h : f.metadata.Normal) (p : ReplacePolicy) :
    f.copy p = f.setPolicy p := by
  rw [FieldDecl.copy_eq, h.copy_eq_setPolicy]
  rfl

theorem MethodDecl.Normal.copy_eq_setPolicy {m : MethodDecl} (h : m.Normal) (p : ReplacePolicy) :
    m.copy p = m.setPolicy p := by
  have hdefault : m.annotDefault.map (ValueArray.copy p) =
      m.annotDefault.map (ValueArray.setPolicy p) :=
    Option.map_congr fun r hr => ValueArray.Normal.copy_eq_setPolicy (h.annotDefault r hr) p
  rw [MethodDecl.copy_eq, h.parameters.pushAll_toList, hdefault, h.metadata.copy_eq_setPolicy]
  rfl

theorem ModuleDecl.Normal.copy_eq {m : ModuleDecl} (h : m.Normal) : m.copy = m := by
  rw [ModuleDecl.copy_eq, h.packages.pushAll_toList, h.requires.pushAll_toList,
    h.exports.pushAll_toList, h.opens.pushAll_toList, h.uses.pushAll_toList,
    h.provides.pushAll_toList]

theorem ComponentDecl.normal_copy (p : ReplacePolicy) (c : ComponentDecl) :
    (c.copy p).metadata.Normal := by
  rw [ComponentDecl.copy_eq]
  exact c.metadata.normal_copy p

theorem FieldDecl.normal_copy (p : ReplacePolicy) (f : FieldDecl) :
    (f.copy p).metadata.Normal := by
  rw [FieldDecl.copy_eq]
  exact f.metadata.normal_copy p

theorem MethodDecl.normal_copy (p : ReplacePolicy) (m : MethodDecl) : (m.copy p).Normal := by
  rw [MethodDecl.copy_eq]
  refine ⟨m.metadata.normal_copy p, AttrList.tight_pushAll_absent _, fun r hr => ?_⟩
  obtain ⟨s, -, rfl⟩ := Option.map_eq_some_iff.mp hr
  exact s.normal_copy p

theorem ModuleDecl.normal_copy (m : ModuleDecl) : m.copy.Normal := by
  rw [ModuleDecl.copy_eq]
  constructor <;> exact AttrList.tight_pushAll_absent _

/-! ### Classes -/

/-- The class and its members are normal, fields and methods stand under their
own keys, and no list was emptied. -/
structure ClassDecl.Normal (c : ClassDecl) : Prop where
  metadata : c.metadata.Normal
  moduleInfo : ∀ m ∈ c.moduleInfo, m.Normal
  nestMembers : c.nestMembers.Tight
  permittedSubtypes : c.permittedSubtypes.Tight
  componentList : c.components.Tight
  components : ∀ d ∈ c.components.toList, d.metadata.Normal
  fields : c.fields.Holds (·.name) (·.metadata.Normal)
  methods : c.methods.Holds (·.key) MethodDecl.Normal

namespace ClassDecl

/-- The class under another configuration: its policy goes to every table and
array, at any depth. Nothing else changes. -/
def setConfig (d : Config) (c : ClassDecl) : ClassDecl :=
  { c with
    metadata := c.metadata.setPolicy d.replacePolicy
    components := c.components.map (ComponentDecl.setPolicy d.replacePolicy)
    fields := (c.fields.map (FieldDecl.setPolicy d.replacePolicy)).setPolicy d.replacePolicy
    methods := (c.methods.map (MethodDecl.setPolicy d.replacePolicy)).setPolicy d.replacePolicy
    config := d }

/-- The class that a replay of `m` builds from nothing. -/
def replayed (c : Config) (m : ClassDecl) : ClassDecl := (blank c).absorbAll m.events

theorem source?_getD (m : ClassDecl) :
    m.source?.getD (none, none) = (m.sourceFile, m.sourceDebug) := by
  unfold source?
  cases m.sourceFile <;> cases m.sourceDebug <;> rfl

/-- A replay into a blank class, part by part. -/
theorem replayed_eq (c : Config) (m : ClassDecl) :
    m.replayed c =
      { m with
        moduleInfo := m.moduleInfo.map ModuleDecl.copy
        metadata := m.metadata.copy c.replacePolicy
        nestMembers := AttrList.absent.pushAll m.nestMembers.toList
        permittedSubtypes := AttrList.absent.pushAll m.permittedSubtypes.toList
        components := AttrList.absent.pushAll
          (m.components.toList.map (ComponentDecl.copy c.replacePolicy))
        fields := (Table.empty c.replacePolicy).insertAll
          (Table.rekeyed (·.name) (FieldDecl.copy c.replacePolicy) m.fields.values)
        methods := (Table.empty c.replacePolicy).insertAll
          (Table.rekeyed (·.key) (MethodDecl.copy c.replacePolicy) m.methods.values)
        config := c } := by
  have hsource : m.source?.getD ((blank c).sourceFile, (blank c).sourceDebug) =
      (m.sourceFile, m.sourceDebug) := m.source?_getD
  unfold replayed
  rw [absorbAll_events, hsource]
  simp only [blank, policy, Option.or_none, List.nil_append]
  rfl

/-- **Whatever is replayed, the result is normal.** -/
theorem normal_replayed (c : Config) (m : ClassDecl) : (m.replayed c).Normal := by
  rw [replayed_eq]
  constructor
  case metadata => exact m.metadata.normal_copy _
  case moduleInfo =>
    intro d hd
    obtain ⟨d', -, rfl⟩ := Option.map_eq_some_iff.mp hd
    exact d'.normal_copy
  case nestMembers => exact AttrList.tight_pushAll_absent _
  case permittedSubtypes => exact AttrList.tight_pushAll_absent _
  case componentList => exact AttrList.tight_pushAll_absent _
  case components =>
    intro d hd
    rw [AttrList.toList_pushAll, AttrList.toList_absent, List.nil_append] at hd
    obtain ⟨d', -, rfl⟩ := List.mem_map.mp hd
    exact d'.normal_copy _
  case fields =>
    exact Table.holds_insertAll_rekeyed (FieldDecl.name_copy _) (FieldDecl.normal_copy _) ..
  case methods =>
    exact Table.holds_insertAll_rekeyed (MethodDecl.key_copy _) (MethodDecl.normal_copy _) ..

/-- **A normal class is replayed as it is,** under the configuration of the
receiver. -/
theorem Normal.replayed_eq_setConfig {x : ClassDecl} (h : x.Normal) (d : Config) :
    x.replayed d = x.setConfig d := by
  have hmodule : x.moduleInfo.map ModuleDecl.copy = x.moduleInfo := by
    refine (Option.map_congr fun m hm => ?_).trans Option.map_id'
    exact (h.moduleInfo m hm).copy_eq
  have hcomponents := h.componentList.pushAll_map fun e he =>
    ComponentDecl.copy_eq_setPolicy (h.components e he) d.replacePolicy
  have hfields := h.fields.insertAll_empty
    (fun f hf => FieldDecl.copy_eq_setPolicy hf d.replacePolicy) d.replacePolicy
  have hmethods := h.methods.insertAll_empty
    (fun m hm => hm.copy_eq_setPolicy d.replacePolicy) d.replacePolicy
  rw [replayed_eq, hmodule, h.metadata.copy_eq_setPolicy, h.nestMembers.pushAll_toList,
    h.permittedSubtypes.pushAll_toList, hcomponents, hfields, hmethods]
  rfl

theorem replayed_replayed (c : Config) (m : ClassDecl) :
    (m.replayed c).replayed c = m.replayed c := by
  rw [replayed_eq c (m.replayed c), replayed_eq c m]
  dsimp only
  congr 1
  case e_moduleInfo =>
    simp only [Option.map_map, Function.comp_def, ModuleDecl.copy_copy]
  case e_metadata => exact m.metadata.copy_copy _
  case e_nestMembers => exact (AttrList.tight_pushAll_absent _).pushAll_toList
  case e_permittedSubtypes => exact (AttrList.tight_pushAll_absent _).pushAll_toList
  case e_components =>
    exact AttrList.pushAll_map_pushAll (ComponentDecl.copy_copy _) .absent .absent _
  case e_fields =>
    exact Table.insertAll_rekeyed (t := .empty _) (s := .empty _) rfl (Table.distinct_empty _)
      (Table.keyedBy_empty _ _) (FieldDecl.name_copy _) (FieldDecl.copy_copy _) _
  case e_methods =>
    exact Table.insertAll_rekeyed (t := .empty _) (s := .empty _) rfl (Table.distinct_empty _)
      (Table.keyedBy_empty _ _) (MethodDecl.key_copy _) (MethodDecl.copy_copy _) _

/-! ### Silence -/

theorem Normal.everyMetadata {c : ClassDecl} (h : c.Normal) : c.EveryMetadata Metadata.Normal :=
  (everyMetadata_iff _ c).mpr ⟨h.metadata, h.components, fun f hf => h.fields.values f hf,
    fun m hm => (h.methods.values m hm).metadata⟩

end ClassDecl

/-- What follows from the normality of an annotation holds of all of them. -/
theorem Metadata.Normal.everyAnnot {m : Metadata} (h : m.Normal) {Q : Annot → Prop}
    (hQ : ∀ a, Annot.Normal a → Q a) : m.EveryAnnot Q :=
  ⟨fun a ha => hQ a (h.annots.values a ha),
    fun visible a ha => hQ a.annot (h.types visible a ha).2⟩

namespace ClassDecl

theorem Normal.distinct {c : ClassDecl} (h : c.Normal) : c.Distinct where
  fields := h.fields.distinct
  methods := h.methods.distinct
  annots := fun n hn => (h.everyMetadata n hn).annots.distinct
  elements := fun n hn => (h.everyMetadata n hn).everyAnnot fun _ ha => ha.names
  values := by
    refine ⟨fun n hn => (h.everyMetadata n hn).everyAnnot fun a ha => ?_, fun m hm r hr => ?_⟩
    · exact ((Annot.everyValue_and ..).mp ha.values).2
    · exact ((ValueArray.everyValue_and ..).mp ((h.methods.values m hm).annotDefault r hr)).2

theorem Normal.ownKeys {c : ClassDecl} (h : c.Normal) : c.OwnKeys :=
  ⟨h.fields.keyed, h.methods.keyed, fun n hn => (h.everyMetadata n hn).annots.keyed⟩

/-- A normal class is replayed into a blank one in silence: it names nothing
twice, and there is nothing to replace. -/
theorem Normal.noticesAll_blank {x : ClassDecl} (h : x.Normal) (d : Config) :
    (blank d).noticesAll x.events = [] := by
  rw [noticesAll_events h.distinct (.of_ownKeys h.distinct h.ownKeys), List.filterMap_eq_nil_iff]
  exact fun e _ => replacing_blank d x.toClassHeader e

/-- **Replay is a normalization.** Whatever state a class is in, what a replay
builds from it is a fixed point of replay under the same configuration. Under
another configuration a second replay changes the configuration and the policies
and nothing else, and no second replay reports anything. -/
theorem replay_normalizes (m : ClassDecl) (c d : Config) :
    (m.replayed c).replayed c = m.replayed c ∧
      (m.replayed c).replayed d = (m.replayed c).setConfig d ∧
      (blank d).noticesAll (m.replayed c).events = [] := by
  have hnormal : (m.replayed c).Normal := normal_replayed c m
  exact ⟨replayed_replayed c m, hnormal.replayed_eq_setConfig d, hnormal.noticesAll_blank d⟩

end ClassDecl

end ClassTree

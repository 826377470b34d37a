/-
# When a replay gives the class back

A class replayed into a blank one is compared with its copy (`==`). The copy is
equal exactly when the class is faithful: every entry stands under the key that
it names, nested annotations are invisible, type annotations stand in the list
of their flag, and nothing is a NaN (`ClassDecl.replay_beq_iff`). Policies and
the presence of empty lists play no part: classes with the same contents compare
the same.

Each part is compared on its own, from the values up. A table of the copy is
filled from nothing; if it equals the table that was replayed, it has as many
entries as were stored in it, so no two of them named the same key
(`Table.insertAll_rekeyed_beq_iff`). From there on everything is compared
position by position.
-/
import ClassTree.Proofs.Contents
import ClassTree.Proofs.Copies
import ClassTree.Proofs.Everywhere

namespace ClassTree

/-! ### Lists and tables -/

theorem map_beq_self_iff {α : Type u} [BEq α] (f : α → α) : ∀ xs : List α,
    (xs.map f == xs) = true ↔ ∀ x ∈ xs, (f x == x) = true
  | [] => by simp
  | x :: xs => by simp [map_beq_self_iff f xs]

theorem AttrList.pushAll_map_beq_iff {α : Type u} [BEq α] (f : α → α) (l : AttrList α) :
    (AttrList.absent.pushAll (l.toList.map f) == l) = true ↔ ∀ x ∈ l.toList, (f x == x) = true := by
  show ((AttrList.absent.pushAll (l.toList.map f)).toList == l.toList) = true ↔ _
  rw [AttrList.toList_pushAll, AttrList.toList_absent, List.nil_append]
  exact map_beq_self_iff f l.toList

theorem AttrList.pushAll_toList_beq {α : Type u} [BEq α] [ReflBEq α] (l : AttrList α) :
    (AttrList.absent.pushAll l.toList == l) = true := by
  show ((AttrList.absent.pushAll l.toList).toList == l.toList) = true
  rw [AttrList.toList_pushAll, AttrList.toList_absent, List.nil_append]
  exact BEq.rfl

namespace Table

variable {κ : Type u} {ν : Type v} [BEq κ] [LawfulBEq κ] [BEq ν]

theorem map_beq_iff (f : ν → ν) (es : List (κ × ν)) :
    (es.map (fun e => (e.1, f e.2)) == es) = true ↔ ∀ e ∈ es, (f e.2 == e.2) = true := by
  rw [map_beq_self_iff]
  refine forall₂_congr fun e _ => ?_
  show (e.1 == e.1 && f e.2 == e.2) = true ↔ _
  simp

/-- A table filled from a replayed one equals it exactly when every entry of
the replayed table stood under its own key and was rebuilt as it was. -/
theorem insertAll_rekeyed_beq_iff [DecidableEq κ] {t : Table κ ν} (ht : t.Distinct)
    (key : ν → κ) (build : ν → ν) (p : ReplacePolicy) :
    ((empty p).insertAll (rekeyed key build t.values) == t) = true ↔
      t.KeyedBy key ∧ ∀ v ∈ t.values, (build v == v) = true := by
  have hvalues : (∀ v ∈ t.values, (build v == v) = true) ↔
      ∀ e ∈ t.entries, (build e.2 == e.2) = true := List.forall_mem_map
  have hnodup : t.KeyedBy key →
      (empty p).insertAll (rekeyed key build t.values) = ⟨(t.map build).entries, p⟩ := by
    intro hk
    rw [hk.rekeyed_values]
    exact insertAll_empty_of_nodup (ht.map build) p
  have hmap : ∀ q, ((⟨(t.map build).entries, q⟩ : Table κ ν) == t) = true ↔
      ∀ e ∈ t.entries, (build e.2 == e.2) = true := fun q => map_beq_iff build t.entries
  constructor
  · intro h
    have hentries : (((empty p).insertAll (rekeyed key build t.values)).entries == t.entries) = true := h
    -- the sizes agree, so the stored keys were distinct and the table lists what was stored
    have hsize : ((empty p).insertAll (rekeyed key build t.values)).size = t.size :=
      List.length_eq_of_beq hentries
    have hlen : (rekeyed key build t.values).length = t.size := by simp [rekeyed, values, size]
    have hgrown : (empty p : Table κ ν).size + (rekeyed key build t.values).length ≤
        ((empty p).insertAll (rekeyed key build t.values)).size := by
      rw [hsize, hlen]
      simp [empty, size]
    obtain ⟨hkeys, -⟩ := nodup_of_size_insertAll hgrown
    rw [insertAll_empty_of_nodup hkeys p] at hentries
    have hk : t.KeyedBy key := by
      have hlist : (t.entries.map (fun e => (key e.2, build e.2)) == t.entries) = true := by
        simpa [rekeyed, values, Function.comp_def] using hentries
      intro e he
      have := (map_beq_self_iff _ _).mp hlist e he
      have hpair : (key e.2 == e.1 && build e.2 == e.2) = true := this
      simp only [Bool.and_eq_true, beq_iff_eq] at hpair
      exact hpair.1.symm
    rw [hnodup hk, hmap] at h
    exact ⟨hk, hvalues.mpr h⟩
  · rintro ⟨hk, hv⟩
    rw [hnodup hk, hmap]
    exact hvalues.mp hv

end Table

/-! ### Values and annotations -/

theorem Binary32.beq_self_iff (x : Binary32) : (x == x) = true ↔ x.isNaN = false := by
  show (!x.isNaN && !x.isNaN && (x.bits == x.bits || x.isZero && x.isZero)) = true ↔ _
  simp

theorem Binary64.beq_self_iff (x : Binary64) : (x == x) = true ↔ x.isNaN = false := by
  show (!x.isNaN && !x.isNaN && (x.bits == x.bits || x.isZero && x.isZero)) = true ↔ _
  simp

theorem Constant.beq_self_iff (k : Constant) : (k == k) = true ↔ k.NotNaN := by
  cases k with
  | int n => exact iff_of_true (beq_self_eq_true n) trivial
  | float x => exact x.beq_self_iff
  | long n => exact iff_of_true (beq_self_eq_true n) trivial
  | double x => exact x.beq_self_iff
  | string s => exact iff_of_true (beq_self_eq_true s) trivial

/-- What the copy of a value asks of each value inside. -/
def ElementValue.Faithful (v : ElementValue) : Prop := v.NotNaN ∧ v.Invisible

/-- A copy under a flag equals the annotation if that is its flag and the
copies of the elements equal the elements. -/
theorem Annot.copy_beq_iff {a : Annot} (ha : a.elements.Distinct) (p : ReplacePolicy)
    (visible : Bool) : (a.copy p visible == a) = true ↔
      a.visible = visible ∧ ∀ e ∈ a.elements.entries, (e.2.copy p == e.2) = true := by
  have hfill : (Table.empty p).insertAll (a.elements.entries.map fun e => (e.1, e.2.copy p)) =
      ⟨a.elements.entries.map fun e => (e.1, e.2.copy p), p⟩ :=
    Table.insertAll_empty_of_nodup (ha.map (ElementValue.copy p)) p
  rw [Annot.copy_eq, hfill]
  show (a.descriptor == a.descriptor && visible == a.visible &&
    a.elements.entries.map (fun e => (e.1, e.2.copy p)) == a.elements.entries) = true ↔ _
  rw [Bool.and_eq_true, Table.map_beq_iff, beq_self_eq_true, Bool.true_and, beq_iff_eq, eq_comm]

theorem ValueArray.copy_beq_iff (p : ReplacePolicy) (r : ValueArray) :
    (r.copy p == r) = true ↔ ∀ v ∈ r.items, (v.copy p == v) = true := by
  rw [ValueArray.copy_eq]
  exact map_beq_self_iff _ r.items

/-- The copy of a value equals it exactly when the value is faithful at every
depth. -/
theorem ElementValue.copy_beq_iff (p : ReplacePolicy) {v : ElementValue}
    (hv : v.Everywhere DistinctNames) : (v.copy p == v) = true ↔ v.Everywhere Faithful := by
  induction v using ElementValue.induct with
  | annot a ih =>
    obtain ⟨hnames, hinner⟩ := (everywhere_annot ..).mp hv
    rw [show (annot a).copy p = annot (a.copy p false) from rfl, annot_beq_annot,
      Annot.copy_beq_iff hnames, everywhere_annot]
    refine and_congr ?_ (forall₂_congr fun e he => ih e he (hinner e he))
    simp [Faithful, NotNaN, Invisible]
  | array r ih =>
    have hinner := ((everywhere_array ..).mp hv).2
    rw [show (array r).copy p = array (r.copy p) from rfl, array_beq_array,
      ValueArray.copy_beq_iff, everywhere_array]
    rw [forall₂_congr fun v hv => ih v hv (hinner v hv)]
    simp [Faithful, NotNaN, Invisible]
  | float x => exact x.beq_self_iff.trans (by simp [Everywhere, Faithful, NotNaN, Invisible])
  | double x => exact x.beq_self_iff.trans (by simp [Everywhere, Faithful, NotNaN, Invisible])
  | enum d c =>
    refine iff_of_true ?_ ⟨trivial, trivial⟩
    show (d == d && c == c) = true
    simp
  | byte n | boolean n | char n | short n | int n | long n | string n | classLiteral n =>
    exact iff_of_true (beq_self_eq_true n) ⟨trivial, trivial⟩

theorem Annot.copy_beq_iff_faithful {a : Annot} (ha : a.elements.Distinct)
    (hv : a.EveryValue ElementValue.DistinctNames) (p : ReplacePolicy) (visible : Bool) :
    (a.copy p visible == a) = true ↔
      a.visible = visible ∧ a.EveryValue ElementValue.Faithful := by
  rw [Annot.copy_beq_iff ha]
  exact and_congr_right fun _ => forall₂_congr fun e he => ElementValue.copy_beq_iff p (hv e he)

theorem ValueArray.copy_beq_iff_faithful {r : ValueArray}
    (hv : r.EveryValue ElementValue.DistinctNames) (p : ReplacePolicy) :
    (r.copy p == r) = true ↔ r.EveryValue ElementValue.Faithful := by
  rw [ValueArray.copy_beq_iff]
  exact forall₂_congr fun v hmem => ElementValue.copy_beq_iff p (hv v hmem)

/-! ### Metadata -/

theorem TypeAnnot.copy_beq_iff (p : ReplacePolicy) (visible : Bool) (a : TypeAnnot) :
    (a.copy p visible == a) = true ↔ (a.annot.copy p visible == a.annot) = true := by
  show (a.typeRef == a.typeRef && a.typePath == a.typePath &&
    a.annot.copy p visible == a.annot) = true ↔ _
  rw [beq_self_eq_true, beq_self_eq_true, Bool.true_and, Bool.true_and]

/-- What the copy of metadata asks of it. -/
def Metadata.Faithful (m : Metadata) : Prop :=
  m.annots.KeyedBy (·.descriptor) ∧ m.TypesFiled ∧
    m.EveryAnnot (Annot.EveryValue ElementValue.Faithful)

theorem Metadata.copy_beq_iff {m : Metadata} (hm : m.annots.Distinct)
    (ha : m.EveryAnnot (·.elements.Distinct))
    (hv : m.EveryAnnot (Annot.EveryValue ElementValue.DistinctNames)) (p : ReplacePolicy) :
    (m.copy p == m) = true ↔ m.Faithful := by
  have hannots : ((Table.empty p).insertAll
      (Table.rekeyed (·.descriptor) (copyAnnot p) m.annots.values) == m.annots) = true ↔
        m.annots.KeyedBy (·.descriptor) ∧
          ∀ a ∈ m.annots.values, a.EveryValue ElementValue.Faithful := by
    rw [Table.insertAll_rekeyed_beq_iff hm]
    refine and_congr_right fun _ => forall₂_congr fun a hmem => ?_
    rw [Annot.copy_beq_iff_faithful (ha.1 a hmem) (hv.1 a hmem)]
    exact and_iff_right rfl
  have htypes : ∀ visible, (AttrList.absent.pushAll
      ((m.typeAnnots visible).toList.map (TypeAnnot.copy p visible)) == m.typeAnnots visible) = true ↔
        (∀ a ∈ (m.typeAnnots visible).toList, a.annot.visible = visible) ∧
          ∀ a ∈ (m.typeAnnots visible).toList, a.annot.EveryValue ElementValue.Faithful := by
    intro visible
    rw [AttrList.pushAll_map_beq_iff, ← forall₂_and]
    refine forall₂_congr fun a hmem => ?_
    rw [TypeAnnot.copy_beq_iff, Annot.copy_beq_iff_faithful (ha.2 visible a hmem) (hv.2 visible a hmem)]
  have hext := AttrList.pushAll_toList_beq m.extensions
  unfold Metadata.copy
  rw [absorbAll_events]
  show (_ == m.annots && _ == m.typeAnnots true && _ == m.typeAnnots false &&
    _ == m.extensions) = true ↔ _
  simp only [Bool.and_eq_true]
  refine (and_congr (and_congr (and_congr hannots (htypes true)) (htypes false))
    (iff_of_true hext trivial)).trans ?_
  unfold Faithful TypesFiled EveryAnnot
  simp only [Bool.forall_bool]
  tauto

/-! ### Members and modules -/

theorem FieldHead.beq_self_iff (h : FieldHead) : (h == h) = true ↔ ∀ k ∈ h.value, k.NotNaN := by
  show (h.access == h.access && h.name == h.name && h.descriptor == h.descriptor &&
    h.signature == h.signature && h.value == h.value) = true ↔ _
  cases hv : h.value with
  | none => simp
  | some k => simpa using k.beq_self_iff

theorem ComponentDecl.copy_beq_iff (p : ReplacePolicy) (c : ComponentDecl) :
    (c.copy p == c) = true ↔ (c.metadata.copy p == c.metadata) = true := by
  rw [ComponentDecl.copy_eq]
  show (c.toComponentHead == c.toComponentHead && c.metadata.copy p == c.metadata) = true ↔ _
  rw [beq_self_eq_true, Bool.true_and]

theorem FieldDecl.copy_beq_iff (p : ReplacePolicy) (f : FieldDecl) :
    (f.copy p == f) = true ↔
      (∀ k ∈ f.value, k.NotNaN) ∧ (f.metadata.copy p == f.metadata) = true := by
  rw [FieldDecl.copy_eq]
  show (f.toFieldHead == f.toFieldHead && f.metadata.copy p == f.metadata) = true ↔ _
  rw [Bool.and_eq_true, FieldHead.beq_self_iff]

theorem Code.option_beq_self (c : Option Code) : (c == c) = true := by
  cases c with
  | none => rfl
  | some c => exact beq_self_eq_true c.id

theorem MethodDecl.copy_beq_iff (p : ReplacePolicy) (m : MethodDecl) :
    (m.copy p == m) = true ↔ (∀ r ∈ m.annotDefault, (r.copy p == r) = true) ∧
      (m.metadata.copy p == m.metadata) = true := by
  have hdefault : (m.annotDefault.map (ValueArray.copy p) == m.annotDefault) = true ↔
      ∀ r ∈ m.annotDefault, (r.copy p == r) = true := by
    cases m.annotDefault with
    | none => simp
    | some r => simp
  rw [MethodDecl.copy_eq]
  show (m.toMethodHead == m.toMethodHead && AttrList.absent.pushAll m.parameters.toList == m.parameters &&
    m.annotDefault.map (ValueArray.copy p) == m.annotDefault && m.metadata.copy p == m.metadata &&
    m.code == m.code) = true ↔ _
  rw [AttrList.pushAll_toList_beq, Code.option_beq_self, beq_self_eq_true, Bool.and_true,
    Bool.true_and, Bool.true_and, Bool.and_eq_true, hdefault]

/-- A module replays as it is. -/
theorem ModuleDecl.copy_beq (m : ModuleDecl) : (m.copy == m) = true := by
  rw [ModuleDecl.copy_eq]
  show (m.toModuleHead == m.toModuleHead && m.mainClass == m.mainClass &&
    AttrList.absent.pushAll m.packages.toList == m.packages &&
    AttrList.absent.pushAll m.requires.toList == m.requires &&
    AttrList.absent.pushAll m.exports.toList == m.exports &&
    AttrList.absent.pushAll m.opens.toList == m.opens &&
    AttrList.absent.pushAll m.uses.toList == m.uses &&
    AttrList.absent.pushAll m.provides.toList == m.provides) = true
  simp only [AttrList.pushAll_toList_beq, beq_self_eq_true, Bool.and_self]

/-! ### Classes -/

namespace ClassDecl

/-- What the copy of a class asks of it, part by part. -/
structure Faithful (m : ClassDecl) : Prop where
  fieldKeys : m.fields.KeyedBy (·.name)
  methodKeys : m.methods.KeyedBy (·.key)
  metadata : m.EveryMetadata Metadata.Faithful
  constants : ∀ f ∈ m.fields.values, ∀ k ∈ f.value, k.NotNaN
  defaults : ∀ d ∈ m.methods.values, ∀ r ∈ d.annotDefault,
    ValueArray.EveryValue ElementValue.Faithful r

theorem Distinct.copy_beq_iff {m : ClassDecl} (hm : m.Distinct) {n : Metadata}
    (hn : n ∈ m.allMetadata) (p : ReplacePolicy) : (n.copy p == n) = true ↔ n.Faithful :=
  Metadata.copy_beq_iff (hm.annots n hn) (hm.elements n hn) (hm.values.1 n hn) p

theorem replay_beq_iff_faithful {m : ClassDecl} (hm : m.Distinct) (c : Config) :
    ((blank c).absorbAll m.events == m) = true ↔ m.Faithful := by
  have hcopy : ∀ n ∈ m.allMetadata, ((n.copy c.replacePolicy == n) = true ↔ n.Faithful) :=
    fun n hn => hm.copy_beq_iff hn c.replacePolicy
  obtain ⟨hmeta, hcomponent, hfield, hmethod⟩ := (everyMetadata_iff _ m).mp hcopy
  have hcomponents : (AttrList.absent.pushAll
      (m.components.toList.map (ComponentDecl.copy c.replacePolicy)) == m.components) = true ↔
        ∀ d ∈ m.components.toList, d.metadata.Faithful := by
    rw [AttrList.pushAll_map_beq_iff]
    refine forall₂_congr fun d hd => ?_
    rw [ComponentDecl.copy_beq_iff, hcomponent d hd]
  have hfields : ((Table.empty c.replacePolicy).insertAll
      (Table.rekeyed (·.name) (FieldDecl.copy c.replacePolicy) m.fields.values) == m.fields) = true ↔
        m.fields.KeyedBy (·.name) ∧
          ∀ f ∈ m.fields.values, (∀ k ∈ f.value, k.NotNaN) ∧ f.metadata.Faithful := by
    rw [Table.insertAll_rekeyed_beq_iff hm.fields]
    refine and_congr_right fun _ => forall₂_congr fun f hf => ?_
    rw [FieldDecl.copy_beq_iff, hfield f hf]
  have hmethods : ((Table.empty c.replacePolicy).insertAll
      (Table.rekeyed (·.key) (MethodDecl.copy c.replacePolicy) m.methods.values) == m.methods) = true ↔
        m.methods.KeyedBy (·.key) ∧ ∀ d ∈ m.methods.values,
          (∀ r ∈ d.annotDefault, ValueArray.EveryValue ElementValue.Faithful r) ∧
            d.metadata.Faithful := by
    rw [Table.insertAll_rekeyed_beq_iff hm.methods]
    refine and_congr_right fun _ => forall₂_congr fun d hd => ?_
    rw [MethodDecl.copy_beq_iff, hmethod d hd]
    refine and_congr_left fun _ => forall₂_congr fun r hr => ?_
    exact ValueArray.copy_beq_iff_faithful (hm.values.2 d hd r hr) c.replacePolicy
  have hsource : m.source?.getD (none, none) = (m.sourceFile, m.sourceDebug) := by
    unfold source?
    cases m.sourceFile <;> cases m.sourceDebug <;> rfl
  have hmodule : (((m.moduleInfo.map ModuleDecl.copy).or none) == m.moduleInfo) = true := by
    cases m.moduleInfo with
    | none => rfl
    | some d => exact d.copy_beq
  rw [absorbAll_events]
  show (m.toClassHeader == m.toClassHeader && (m.source?.getD (none, none)).1 == m.sourceFile &&
    (m.source?.getD (none, none)).2 == m.sourceDebug &&
    (m.moduleInfo.map ModuleDecl.copy).or none == m.moduleInfo &&
    m.outerClass.or none == m.outerClass && m.nestHost.or none == m.nestHost &&
    m.metadata.copy c.replacePolicy == m.metadata &&
    AttrList.absent.pushAll m.nestMembers.toList == m.nestMembers &&
    AttrList.absent.pushAll m.permittedSubtypes.toList == m.permittedSubtypes &&
    [] ++ m.innerClasses == m.innerClasses &&
    AttrList.absent.pushAll (m.components.toList.map (ComponentDecl.copy c.replacePolicy)) ==
      m.components &&
    (Table.empty c.replacePolicy).insertAll
      (Table.rekeyed (·.name) (FieldDecl.copy c.replacePolicy) m.fields.values) == m.fields &&
    (Table.empty c.replacePolicy).insertAll
      (Table.rekeyed (·.key) (MethodDecl.copy c.replacePolicy) m.methods.values) == m.methods)
      = true ↔ _
  rw [hsource, hmodule]
  simp only [Bool.and_eq_true, beq_self_eq_true, Option.or_none, List.nil_append,
    AttrList.pushAll_toList_beq, true_and, and_true, hmeta, hcomponents, hfields, hmethods]
  constructor
  · rintro ⟨⟨⟨hm₀, hm₁⟩, hkf, hf⟩, hkm, hd⟩
    refine ⟨hkf, hkm, (everyMetadata_iff _ m).mpr ⟨hm₀, hm₁, ?_, ?_⟩, ?_, ?_⟩
    · exact fun f hmem => (hf f hmem).2
    · exact fun d hmem => (hd d hmem).2
    · exact fun f hmem => (hf f hmem).1
    · exact fun d hmem => (hd d hmem).1
  · rintro ⟨hkf, hkm, hall, hconst, hdefault⟩
    obtain ⟨hm₀, hm₁, hf, hd⟩ := (everyMetadata_iff _ m).mp hall
    refine ⟨⟨⟨hm₀, hm₁⟩, hkf, ?_⟩, hkm, ?_⟩
    · exact fun f hmem => ⟨hconst f hmem, hf f hmem⟩
    · exact fun d hmem => ⟨hdefault d hmem, hd d hmem⟩

/-- The parts are the four conditions on a class: a value is faithful if it is
no NaN and no visible annotation. -/
theorem faithful_iff (m : ClassDecl) :
    m.Faithful ↔ m.OwnKeys ∧ m.NestedInvisible ∧ m.TypesFiled ∧ m.NaNFree := by
  have hmeta : m.EveryMetadata Metadata.Faithful ↔
      m.EveryMetadata (·.annots.KeyedBy (·.descriptor)) ∧ m.TypesFiled ∧
        m.EveryMetadata (·.EveryAnnot (Annot.EveryValue ElementValue.Faithful)) :=
    (everyMetadata_and ..).trans (and_congr_right fun _ => everyMetadata_and ..)
  have hvalues : m.EveryValue ElementValue.Faithful ↔
      m.EveryValue ElementValue.NotNaN ∧ m.EveryValue ElementValue.Invisible :=
    everyValue_and ..
  constructor
  · rintro ⟨hkf, hkm, hall, hconst, hdefault⟩
    obtain ⟨hka, htypes, hannots⟩ := hmeta.mp hall
    obtain ⟨hnan, hvis⟩ := hvalues.mp ⟨hannots, hdefault⟩
    exact ⟨⟨hkf, hkm, hka⟩, hvis, htypes, hconst, hnan⟩
  · rintro ⟨⟨hkf, hkm, hka⟩, hvis, htypes, hconst, hnan⟩
    obtain ⟨hannots, hdefault⟩ := hvalues.mpr ⟨hnan, hvis⟩
    exact ⟨hkf, hkm, hmeta.mpr ⟨hka, htypes, hannots⟩, hconst, hdefault⟩

/-- **A replay into a blank class gives the class back exactly when** entries
stand under their own keys, nested annotations are invisible, type annotations
stand in the list of their flag, and nothing is a NaN. Another class with the
same contents, replayed under another configuration, compares the same. -/
theorem replay_beq_iff (m : ClassDecl) (hm : m.Distinct) (c : Config) :
    (((blank c).absorbAll m.events == m) = true ↔
      m.OwnKeys ∧ m.NestedInvisible ∧ m.TypesFiled ∧ m.NaNFree) ∧
    ∀ (n : ClassDecl) (d : Config), n.contents = m.contents →
      ((blank d).absorbAll n.events == n) = ((blank c).absorbAll m.events == m) := by
  constructor
  · exact (replay_beq_iff_faithful hm c).trans m.faithful_iff
  · intro n d hn
    have hevents : n.events = m.events := by
      rw [← events_contents n, hn, events_contents]
    have hbeq : ∀ x : ClassDecl, (x == n) = (x == m) := by
      intro x
      rw [← beq_contents x n, hn, beq_contents]
    rw [hevents, hbeq, Bool.eq_iff_iff, replay_beq_iff_faithful hm d, replay_beq_iff_faithful hm c]

/-- A class with a constant field and an annotation that holds an array of
annotations. -/
def nestingClass : ClassDecl :=
  { blank {} with
    name := "A"
    metadata :=
      { Metadata.blank .inPlace with
        annots := ⟨[("LA;", ⟨"LA;", true, ⟨[("v", .array ⟨[.annot ⟨"LB;", false, .empty .inPlace⟩,
          .float ⟨0⟩], .moveToEnd⟩)], .inPlace⟩⟩)], .inPlace⟩
        visibleTypeAnnots := .ofList [] }
    fields := ⟨[("x", ⟨⟨.empty, "x", "F", none, some (.float ⟨0⟩)⟩, .blank .moveToEnd⟩)], .inPlace⟩ }

theorem nestingClass_replay_beq :
    nestingClass.Distinct ∧ ((blank {}).absorbAll nestingClass.events == nestingClass) = true := by
  have hm : nestingClass.Distinct := by decide
  exact ⟨hm, (replay_beq_iff nestingClass hm {}).1.mpr (by decide)⟩

end ClassDecl

end ClassTree

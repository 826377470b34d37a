/-
# One policy throughout

Every table and every array of a class has a policy of its own, and hands it on
to what is built inside. They start as that of the configuration, and no edit
mixes them: what an event opens takes the policy of its place, and a finished
part is rewritten when it is stored, whatever policies it came with. So in every
class that edits can reach all tables and arrays, at any depth, carry the policy
of the configuration, and a replacement anywhere in the class is placed by it
(`ClassDecl.edited_one_policy`).

The one thing asked of the edits is that events hand over leaves: a ready
annotation or array would be kept as it came. The invariant is `ClassDecl.Uniform`,
with a level for each kind of part; each operation on a table keeps `Table.Uniform`.

Key definitions: `Table.Uniform`, `ElementValue.Carries`, `Metadata.Uniform`,
`MethodDecl.Uniform`, `ClassDecl.Uniform`, `ClassDecl.EveryTable`,
`ClassDecl.EveryArray`, `ReplacePolicy.place`, `ClassEdit.EveryValue`.
-/
import ClassTree.Proofs.Contents
import ClassTree.Proofs.Edits
import ClassTree.Proofs.Everywhere
import ClassTree.Proofs.Placement

namespace ClassTree

/-! ### Tables -/

/-- Where a policy puts a key among those that are listed: a key that is present
keeps its place or moves to the end, a new one is listed last. -/
def ReplacePolicy.place {κ : Type u} [DecidableEq κ] (p : ReplacePolicy) (k : κ) (ks : List κ) :
    List κ :=
  match p with
  | .inPlace => if k ∈ ks then ks else ks ++ [k]
  | .moveToEnd => ks.filter (· ≠ k) ++ [k]

namespace Table

variable {κ : Type u} {ν : Type v} {p : ReplacePolicy} {Q : ν → Prop}

/-- The table carries the policy, and its values have the property. -/
structure Uniform (p : ReplacePolicy) (Q : ν → Prop) (t : Table κ ν) : Prop where
  policy : t.policy = p
  values : ∀ v ∈ t.values, Q v

theorem uniform_empty (p : ReplacePolicy) (Q : ν → Prop) : (empty p : Table κ ν).Uniform p Q :=
  ⟨rfl, fun _ hv => absurd hv List.not_mem_nil⟩

theorem Uniform.value {t : Table κ ν} (h : t.Uniform p Q) {e : κ × ν} (he : e ∈ t.entries) :
    Q e.2 :=
  h.values e.2 (List.mem_map.mpr ⟨e, he, rfl⟩)

/-- A table whose values are all rewritten, and which is given a policy. -/
theorem uniform_rewrite {f : ν → ν} (hf : ∀ v, Q (f v)) (p : ReplacePolicy) (t : Table κ ν) :
    ((t.map f).setPolicy p).Uniform p Q := by
  refine ⟨rfl, List.forall_mem_map.mpr fun e he => ?_⟩
  obtain ⟨e', -, rfl⟩ := List.mem_map.mp he
  exact hf e'.2

variable [DecidableEq κ]

theorem Uniform.insert {t : Table κ ν} (h : t.Uniform p Q) (k : κ) {v : ν} (hv : Q v) :
    (t.insert k v).Uniform p Q := by
  refine ⟨(policy_insert t k v).trans h.policy, List.forall_mem_map.mpr fun e he => ?_⟩
  rcases mem_entries_insert he with rfl | he
  · exact hv
  · exact h.value he

theorem Uniform.insertAll {t : Table κ ν} (h : t.Uniform p Q) {es : List (κ × ν)}
    (hes : ∀ e ∈ es, Q e.2) : (t.insertAll es).Uniform p Q := by
  induction es generalizing t with
  | nil => exact h
  | cons e es ih =>
    rw [List.forall_mem_cons] at hes
    exact ih (h.insert e.1 hes.1) hes.2

theorem Uniform.erase {t : Table κ ν} (h : t.Uniform p Q) (k : κ) : (t.erase k).Uniform p Q :=
  ⟨h.policy, List.forall_mem_map.mpr fun _ he => h.value (List.mem_filter.mp he).1⟩

theorem Uniform.modify {t : Table κ ν} (h : t.Uniform p Q) (k : κ) {f : ν → ν}
    (hf : ∀ v, Q v → Q (f v)) : (t.modify k f).Uniform p Q := by
  refine ⟨h.policy, List.forall_mem_map.mpr fun e he => ?_⟩
  rcases mem_update he with he | ⟨v, hv, rfl⟩
  · exact h.value he
  · exact hf v (h.value hv)

/-- A table that carries a policy places by it. -/
theorem keys_insert_eq_place {t : Table κ ν} (h : t.policy = p) (k : κ) (v : ν) :
    (t.insert k v).keys = p.place k t.keys := by
  rw [keys_insert, h]
  rfl

end Table

/-! ### Values and annotations -/

namespace ElementValue

/-- Neither an annotation nor an array. -/
def IsLeaf : ElementValue → Prop
  | .annot _ => False
  | .array _ => False
  | _ => True

/-- The value itself carries the policy, if it is an annotation or an array. -/
def Carries (p : ReplacePolicy) : ElementValue → Prop
  | .annot a => a.elements.policy = p
  | .array r => r.policy = p
  | _ => True

/-- The policy is that of the value and of everything inside it. -/
def Uniform (p : ReplacePolicy) (v : ElementValue) : Prop := v.Everywhere (Carries p)

theorem IsLeaf.uniform {v : ElementValue} (h : v.IsLeaf) (p : ReplacePolicy) : v.Uniform p := by
  cases v with
  | annot a => exact absurd h id
  | array r => exact absurd h id
  | _ => exact trivial

theorem Everywhere.mono {P Q : ElementValue → Prop} (hPQ : ∀ v, P v → Q v) {v : ElementValue} :
    v.Everywhere P → v.Everywhere Q := by
  induction v using ElementValue.induct with
  | annot a ih =>
    intro h
    obtain ⟨hhere, hinside⟩ := (everywhere_annot ..).mp h
    exact (everywhere_annot ..).mpr ⟨hPQ _ hhere, fun e he => ih e he (hinside e he)⟩
  | array r ih =>
    intro h
    obtain ⟨hhere, hinside⟩ := (everywhere_array ..).mp h
    exact (everywhere_array ..).mpr ⟨hPQ _ hhere, fun v hv => ih v hv (hinside v hv)⟩
  | _ => exact hPQ _

end ElementValue

/-- The policy is that of the annotation and of everything inside it. -/
def Annot.Uniform (p : ReplacePolicy) (a : Annot) : Prop :=
  a.elements.Uniform p (ElementValue.Uniform p)

/-- The policy is that of the array and of everything inside it. -/
structure ValueArray.Uniform (p : ReplacePolicy) (r : ValueArray) : Prop where
  policy : r.policy = p
  items : ∀ v ∈ r.items, v.Uniform p

namespace ElementValue

theorem uniform_annot_iff (p : ReplacePolicy) (a : Annot) :
    (annot a).Uniform p ↔ Annot.Uniform p a := by
  refine (everywhere_annot (Carries p) a).trans ?_
  constructor
  · rintro ⟨hpolicy, hvalues⟩
    exact ⟨hpolicy, List.forall_mem_map.mpr hvalues⟩
  · rintro ⟨hpolicy, hvalues⟩
    exact ⟨hpolicy, List.forall_mem_map.mp hvalues⟩

theorem uniform_array_iff (p : ReplacePolicy) (r : ValueArray) :
    (array r).Uniform p ↔ ValueArray.Uniform p r := by
  refine (everywhere_array (Carries p) r).trans ?_
  constructor
  · rintro ⟨hpolicy, hitems⟩
    exact ⟨hpolicy, hitems⟩
  · rintro ⟨hpolicy, hitems⟩
    exact ⟨hpolicy, hitems⟩

/-- Leaves are put together to values that carry the policy of their place. -/
theorem leaf_builds (p : ReplacePolicy) : Builds p IsLeaf (Uniform p) where
  value := fun _ h => h.uniform p
  enum := fun _ _ => trivial
  annot := fun _ _ h => (uniform_annot_iff p _).mpr ((Table.uniform_empty p _).insertAll h)
  array := fun vs h => (uniform_array_iff p ⟨vs, p⟩).mpr ⟨rfl, h⟩

end ElementValue

theorem Annot.uniform_setPolicy_of {a : Annot} {p : ReplacePolicy}
    (h : ∀ e ∈ a.elements.entries, (e.2.setPolicy p).Uniform p) :
    (Annot.setPolicy p a).Uniform p := by
  refine ⟨rfl, List.forall_mem_map.mpr fun e he => ?_⟩
  rw [Annot.setPolicy, ElementValue.setPolicyEntries_eq_map] at he
  obtain ⟨e', he', rfl⟩ := List.mem_map.mp he
  exact h e' he'

theorem ValueArray.uniform_setPolicy_of {r : ValueArray} {p : ReplacePolicy}
    (h : ∀ v ∈ r.items, (v.setPolicy p).Uniform p) : (ValueArray.setPolicy p r).Uniform p := by
  refine ⟨rfl, fun v hv => ?_⟩
  rw [ValueArray.setPolicy, ElementValue.setPolicyItems_eq_map] at hv
  obtain ⟨w, hw, rfl⟩ := List.mem_map.mp hv
  exact h w hw

/-- **The rewriting of policies reaches everything,** whatever the value. -/
theorem ElementValue.uniform_setPolicy (p : ReplacePolicy) (v : ElementValue) :
    (v.setPolicy p).Uniform p := by
  induction v using ElementValue.induct with
  | annot a ih =>
    rw [setPolicy_annot, uniform_annot_iff]
    exact Annot.uniform_setPolicy_of ih
  | array r ih =>
    rw [setPolicy_array, uniform_array_iff]
    exact ValueArray.uniform_setPolicy_of ih
  | _ => exact trivial

theorem Annot.uniform_setPolicy (p : ReplacePolicy) (a : Annot) : (Annot.setPolicy p a).Uniform p :=
  Annot.uniform_setPolicy_of fun e _ => e.2.uniform_setPolicy p

theorem ValueArray.uniform_setPolicy (p : ReplacePolicy) (r : ValueArray) :
    (ValueArray.setPolicy p r).Uniform p :=
  ValueArray.uniform_setPolicy_of fun v _ => v.uniform_setPolicy p

theorem Annot.uniform_absorbAll_blank (d : String) (visible : Bool) (p : ReplacePolicy)
    {es : List ElementEvent} (hes : ElementEvent.EveryValueAll ElementValue.IsLeaf es) :
    (Annot.absorbAll (Annot.blank d visible p) es).Uniform p := by
  rw [Annot.absorbAll_eq]
  exact (Table.uniform_empty p _).insertAll ((ElementValue.leaf_builds p).elements es hes)

theorem ValueArray.uniform_absorbAll_blank (p : ReplacePolicy) {es : List ElementEvent}
    (hes : ElementEvent.EveryValueAll ElementValue.IsLeaf es) :
    (ValueArray.absorbAll (ValueArray.blank p) es).Uniform p := by
  have helements := (ElementValue.leaf_builds p).elements es hes
  rw [ValueArray.absorbAll_eq]
  refine ⟨rfl, fun v hv => ?_⟩
  obtain ⟨x, hx, rfl⟩ := List.mem_map.mp hv
  exact helements x hx

/-! ### Metadata -/

/-- The policy is that of the metadata and of every annotation in it. -/
structure Metadata.Uniform (p : ReplacePolicy) (m : Metadata) : Prop where
  annots : m.annots.Uniform p (Annot.Uniform p)
  types : ∀ visible, ∀ a ∈ (m.typeAnnots visible).toList, Annot.Uniform p a.annot

namespace Metadata

variable {p : ReplacePolicy}

theorem uniform_blank (p : ReplacePolicy) : (blank p).Uniform p where
  annots := Table.uniform_empty ..
  types := fun visible _ ha => by cases visible <;> exact absurd ha List.not_mem_nil

/-- **Every event keeps the policy throughout.** -/
theorem Uniform.absorb {m : Metadata} (h : m.Uniform p) {e : MemberEvent}
    (he : e.EveryValue ElementValue.IsLeaf) : (m.absorb e).Uniform p := by
  have hp : m.policy = p := h.annots.policy
  cases e with
  | annot d visible body =>
    rw [absorb_annot, hp]
    exact ⟨h.annots.insert d (Annot.uniform_absorbAll_blank d visible p he), h.types⟩
  | typeAnnot ref path d visible body =>
    have hnew := Annot.uniform_absorbAll_blank d visible p he
    rw [absorb_typeAnnot, hp]
    refine ⟨?_, fun flag a ha => ?_⟩
    · cases visible <;> exact h.annots
    · rw [toList_typeAnnots_push] at ha
      rcases List.mem_append.mp ha with ha | ha
      · exact h.types flag a ha
      · split at ha
        · cases List.mem_singleton.mp ha
          exact hnew
        · cases ha
  | extension x => exact ⟨h.annots, h.types⟩
  | finish => exact h

theorem Uniform.absorbAll {m : Metadata} (h : m.Uniform p) {es : List MemberEvent}
    (hes : ∀ e ∈ es, e.EveryValue ElementValue.IsLeaf) : (m.absorbAll es).Uniform p := by
  induction es generalizing m with
  | nil => exact h
  | cons e es ih =>
    rw [List.forall_mem_cons] at hes
    exact ih (h.absorb hes.1) hes.2

theorem uniform_setPolicy (p : ReplacePolicy) (m : Metadata) : (m.setPolicy p).Uniform p where
  annots := Table.uniform_rewrite (Annot.uniform_setPolicy p) p _
  types := by
    intro visible a ha
    have hlist : ((m.setPolicy p).typeAnnots visible).toList = (m.typeAnnots visible).toList.map
        fun a => { a with annot := Annot.setPolicy p a.annot } := by
      cases visible <;> exact AttrList.toList_map ..
    rw [hlist] at ha
    obtain ⟨b, -, rfl⟩ := List.mem_map.mp ha
    exact Annot.uniform_setPolicy p b.annot

theorem Uniform.insertAnnot {m : Metadata} (h : m.Uniform p) (a : Annot) :
    (m.insertAnnot a).Uniform p := by
  have hp : m.policy = p := h.annots.policy
  unfold Metadata.insertAnnot
  rw [hp]
  exact ⟨h.annots.insert a.descriptor (Annot.uniform_setPolicy p a), h.types⟩

theorem Uniform.removeAnnot {m : Metadata} (h : m.Uniform p) (d : String) :
    (m.removeAnnot d).Uniform p :=
  ⟨h.annots.erase d, h.types⟩

end Metadata

/-! ### Members -/

/-- The policy is that of the metadata and of the default, if there is one. -/
structure MethodDecl.Uniform (p : ReplacePolicy) (m : MethodDecl) : Prop where
  metadata : m.metadata.Uniform p
  annotDefault : ∀ r ∈ m.annotDefault, ValueArray.Uniform p r

/-- If the edit is an event, it is one that may be. Finished parts are free. -/
def PartEdit.EveryEvent {ε : Type} (may : ε → Prop) : PartEdit ε → Prop
  | .event e => may e
  | _ => True

theorem FieldDecl.uniform_absorbAll_blank (head : FieldHead) (p : ReplacePolicy)
    {es : List MemberEvent} (hes : ∀ e ∈ es, e.EveryValue ElementValue.IsLeaf) :
    ((blank head p).absorbAll es).metadata.Uniform p := by
  rw [absorbAll_eq]
  exact (Metadata.uniform_blank p).absorbAll hes

/-- Every edit of a field keeps the policy throughout. -/
theorem FieldDecl.uniform_apply {p : ReplacePolicy} {f : FieldDecl} (h : f.metadata.Uniform p)
    {edit : PartEdit MemberEvent}
    (he : edit.EveryEvent (MemberEvent.EveryValue ElementValue.IsLeaf)) :
    (f.apply edit).metadata.Uniform p := by
  cases edit with
  | event e => exact h.absorb he
  | insertAnnot a => exact h.insertAnnot a
  | removeAnnot d => exact h.removeAnnot d

namespace MethodDecl

variable {p : ReplacePolicy}

theorem uniform_blank (head : MethodHead) (p : ReplacePolicy) : (blank head p).Uniform p :=
  ⟨Metadata.uniform_blank p, fun _ hr => absurd hr (Option.not_mem_none _)⟩

theorem Uniform.absorb {m : MethodDecl} (h : m.Uniform p) {e : MethodEvent}
    (he : e.EveryValue ElementValue.IsLeaf) : (m.absorb e).Uniform p := by
  cases e with
  | member e => exact ⟨h.metadata.absorb he, h.annotDefault⟩
  | parameter q => exact ⟨h.metadata, h.annotDefault⟩
  | annotDefault body =>
    have hp : m.metadata.policy = p := h.metadata.annots.policy
    refine ⟨h.metadata, fun r hr => ?_⟩
    cases hr
    rw [hp]
    exact ValueArray.uniform_absorbAll_blank p he
  | code c => exact ⟨h.metadata, h.annotDefault⟩

theorem Uniform.absorbAll {m : MethodDecl} (h : m.Uniform p) {es : List MethodEvent}
    (hes : ∀ e ∈ es, e.EveryValue ElementValue.IsLeaf) : (m.absorbAll es).Uniform p := by
  induction es generalizing m with
  | nil => exact h
  | cons e es ih =>
    rw [List.forall_mem_cons] at hes
    exact ih (h.absorb hes.1) hes.2

theorem uniform_setPolicy (p : ReplacePolicy) (m : MethodDecl) : (m.setPolicy p).Uniform p where
  metadata := m.metadata.uniform_setPolicy p
  annotDefault := by
    intro r hr
    obtain ⟨s, -, rfl⟩ := Option.map_eq_some_iff.mp hr
    exact ValueArray.uniform_setPolicy p s

/-- Every edit of a method keeps the policy throughout. -/
theorem Uniform.apply {m : MethodDecl} (h : m.Uniform p) {edit : PartEdit MethodEvent}
    (he : edit.EveryEvent (MethodEvent.EveryValue ElementValue.IsLeaf)) :
    (m.apply edit).Uniform p := by
  cases edit with
  | event e => exact h.absorb he
  | insertAnnot a => exact ⟨h.metadata.insertAnnot a, h.annotDefault⟩
  | removeAnnot d => exact ⟨h.metadata.removeAnnot d, h.annotDefault⟩

end MethodDecl

/-! ### Classes -/

/-- The property holds of the values that the event of an edit hands over.
Finished parts are free. -/
def ClassEdit.EveryValue (P : ElementValue → Prop) : ClassEdit → Prop
  | .event e => e.EveryValue P
  | .editField _ edit => edit.EveryEvent (MemberEvent.EveryValue P)
  | .editMethod _ edit => edit.EveryEvent (MethodEvent.EveryValue P)
  | _ => True

/-- The policy is that of the class and of everything inside it. -/
structure ClassDecl.Uniform (p : ReplacePolicy) (c : ClassDecl) : Prop where
  policy : c.policy = p
  metadata : c.metadata.Uniform p
  components : ∀ d ∈ c.components.toList, d.metadata.Uniform p
  fields : c.fields.Uniform p (·.metadata.Uniform p)
  methods : c.methods.Uniform p (MethodDecl.Uniform p)

namespace ClassDecl

variable {p : ReplacePolicy}

theorem uniform_blank (c : Config) : (blank c).Uniform c.replacePolicy where
  policy := rfl
  metadata := Metadata.uniform_blank _
  components := fun _ hd => absurd hd List.not_mem_nil
  fields := Table.uniform_empty ..
  methods := Table.uniform_empty ..

theorem Uniform.absorb {c : ClassDecl} (h : c.Uniform p) {e : ClassEvent}
    (he : e.EveryValue ElementValue.IsLeaf) : (c.absorb e).Uniform p := by
  cases e with
  | member e => exact { h with metadata := h.metadata.absorb he }
  | component head body =>
    have hnew := (Metadata.uniform_blank p).absorbAll he
    rw [absorb_component, h.policy]
    refine { h with components := fun d hd => ?_ }
    rcases List.mem_append.mp hd with hd | hd
    · exact h.components d hd
    · cases List.mem_singleton.mp hd
      rw [ComponentDecl.absorbAll_eq]
      exact hnew
  | field head body =>
    rw [absorb_field, h.policy]
    have hnew := FieldDecl.uniform_absorbAll_blank head p he
    exact { h with fields := h.fields.insert head.name hnew }
  | method head body =>
    rw [absorb_method, h.policy]
    have hnew := (MethodDecl.uniform_blank head p).absorbAll he
    exact { h with methods := h.methods.insert head.key hnew }
  | _ => exact ⟨h.policy, h.metadata, h.components, h.fields, h.methods⟩

/-- **Every edit keeps the policy throughout,** whatever finished part it
stores. -/
theorem Uniform.apply {c : ClassDecl} (h : c.Uniform p) {edit : ClassEdit}
    (he : edit.EveryValue ElementValue.IsLeaf) : (c.apply edit).Uniform p := by
  cases edit with
  | event e => exact h.absorb he
  | insertAnnot a => exact { h with metadata := h.metadata.insertAnnot a }
  | removeAnnot d => exact { h with metadata := h.metadata.removeAnnot d }
  | insertField f =>
    have hnew : (f.setPolicy c.policy).metadata.Uniform p :=
      h.policy ▸ f.metadata.uniform_setPolicy c.policy
    exact { h with fields := h.fields.insert f.name hnew }
  | removeField name => exact { h with fields := h.fields.erase name }
  | editField name edit =>
    have hfields := h.fields.modify name fun f hf => f.uniform_apply hf he
    exact { h with fields := hfields }
  | insertMethod m =>
    have hnew : (m.setPolicy c.policy).Uniform p := h.policy ▸ m.uniform_setPolicy c.policy
    exact { h with methods := h.methods.insert m.key hnew }
  | removeMethod key => exact { h with methods := h.methods.erase key }
  | editMethod key edit =>
    have hmethods := h.methods.modify key fun _ hm => hm.apply he
    exact { h with methods := hmethods }

theorem Uniform.applyAll {c : ClassDecl} (h : c.Uniform p) {edits : List ClassEdit}
    (he : ∀ edit ∈ edits, edit.EveryValue ElementValue.IsLeaf) : (c.applyAll edits).Uniform p := by
  induction edits generalizing c with
  | nil => exact h
  | cons edit edits ih =>
    rw [List.forall_mem_cons] at he
    exact ih (h.apply he.1) he.2

/-! ### All tables and arrays of a class -/

/-- The property holds of every table of the class: of its fields, of its
methods, of annotations, and of the elements of annotations, nested or not. -/
structure EveryTable (Q : ∀ {κ ν : Type} [DecidableEq κ], Table κ ν → Prop) (c : ClassDecl) :
    Prop where
  fields : Q c.fields
  methods : Q c.methods
  annots : c.EveryMetadata fun m => Q m.annots
  elements : c.EveryMetadata (·.EveryAnnot fun a => Q a.elements)
  nested : c.EveryValue fun v => ∀ a, v = .annot a → Q a.elements

/-- The property holds of every array of the class: of the defaults of methods,
and of those nested in annotations, arrays and defaults. -/
structure EveryArray (Q : ValueArray → Prop) (c : ClassDecl) : Prop where
  defaults : ∀ m ∈ c.methods.values, ∀ r ∈ m.annotDefault, Q r
  nested : c.EveryValue fun v => ∀ r, v = .array r → Q r

theorem Uniform.everyMetadata {c : ClassDecl} (h : c.Uniform p) :
    c.EveryMetadata (Metadata.Uniform p) :=
  (everyMetadata_iff _ c).mpr ⟨h.metadata, h.components, fun f hf => h.fields.values f hf,
    fun m hm => (h.methods.values m hm).metadata⟩

theorem Uniform.everyAnnot {c : ClassDecl} (h : c.Uniform p) :
    c.EveryMetadata (·.EveryAnnot (Annot.Uniform p)) := fun n hn =>
  ⟨(h.everyMetadata n hn).annots.values, (h.everyMetadata n hn).types⟩

theorem Uniform.everyValue {c : ClassDecl} (h : c.Uniform p) {P : ElementValue → Prop}
    (hP : ∀ v : ElementValue, v.Carries p → P v) : c.EveryValue P := by
  have hvalue : ∀ v : ElementValue, v.Uniform p → v.Everywhere P := fun _ hv => hv.mono hP
  refine ⟨fun n hn => ⟨fun a ha e he => ?_, fun visible a ha e he => ?_⟩, fun m hm r hr v hv => ?_⟩
  · exact hvalue e.2 (((h.everyAnnot n hn).1 a ha).value he)
  · exact hvalue e.2 (((h.everyAnnot n hn).2 visible a ha).value he)
  · exact hvalue v (((h.methods.values m hm).annotDefault r hr).items v hv)

theorem Uniform.everyTable {c : ClassDecl} (h : c.Uniform p)
    {Q : ∀ {κ ν : Type} [DecidableEq κ], Table κ ν → Prop}
    (hQ : ∀ {κ ν : Type} [DecidableEq κ] (t : Table κ ν), t.policy = p → Q t) :
    c.EveryTable Q where
  fields := hQ _ h.fields.policy
  methods := hQ _ h.methods.policy
  annots := fun n hn => hQ _ (h.everyMetadata n hn).annots.policy
  elements := fun n hn =>
    ⟨fun a ha => hQ _ ((h.everyAnnot n hn).1 a ha).policy,
      fun visible a ha => hQ _ ((h.everyAnnot n hn).2 visible a ha).policy⟩
  nested := h.everyValue fun v hv a ha => by
    subst ha
    exact hQ _ hv

theorem Uniform.everyArray {c : ClassDecl} (h : c.Uniform p) :
    c.EveryArray (·.policy = p) where
  defaults := fun m hm r hr => ((h.methods.values m hm).annotDefault r hr).policy
  nested := h.everyValue fun v hv r hr => by
    subst hr
    exact hv

/-- **Every class that edits lead to has one policy throughout.** From nothing,
any sequence of edits, in any order and with any finished parts, leads to a class
whose tables and arrays all carry the policy of the configuration; what is stored
in any of its tables is placed by that policy. -/
theorem edited_one_policy (c : Config) (edits : List ClassEdit)
    (h : ∀ edit ∈ edits, edit.EveryValue ElementValue.IsLeaf) {m : ClassDecl}
    (hm : (blank c).applyAll edits = m) :
    m.EveryTable (fun t => t.policy = c.replacePolicy) ∧
      m.EveryArray (fun r => r.policy = c.replacePolicy) ∧
      m.EveryTable (fun t => ∀ k v, (t.insert k v).keys = c.replacePolicy.place k t.keys) := by
  have huniform : m.Uniform c.replacePolicy := hm ▸ (uniform_blank c).applyAll h
  refine ⟨huniform.everyTable fun _ ht => ht, huniform.everyArray, ?_⟩
  exact huniform.everyTable fun _ ht k v => Table.keys_insert_eq_place ht k v

/-- A field is opened with an annotation that holds an array, another one is
stored with annotations of another policy, and a further annotation is stored in
it. -/
def mixedEdits : List ClassEdit :=
  [.event (.field ⟨.empty, "x", "F", none, none⟩
      [.annot "LA;" true [.array "v" [.annot "" "LB;" [.value "w" (.int 1)], .enum "" "LE;" "X"]]]),
    .insertField ⟨⟨.empty, "y", "J", none, none⟩,
      { Metadata.blank .inPlace with
        annots := ⟨[("LA;", ⟨"LB;", true, ⟨[("v", .array ⟨[], .moveToEnd⟩)], .inPlace⟩⟩)],
          .inPlace⟩ }⟩,
    .editField "y" (.insertAnnot ⟨"LC;", false, ⟨[("w", .array ⟨[], .inPlace⟩)], .inPlace⟩⟩)]

theorem mixedEdits_one_policy :
    (∀ edit ∈ mixedEdits, edit.EveryValue ElementValue.IsLeaf) ∧
      ((blank { replacePolicy := .moveToEnd }).applyAll mixedEdits).EveryTable
        (fun t => t.policy = .moveToEnd) := by
  have h : ∀ edit ∈ mixedEdits, edit.EveryValue ElementValue.IsLeaf := by
    unfold mixedEdits
    simp only [List.forall_mem_cons]
    refine ⟨?_, trivial, trivial, fun _ he => nomatch he⟩
    simp [ClassEdit.EveryValue, ClassEvent.EveryValue, MemberEvent.EveryValue,
      ElementEvent.EveryValueAll, ElementEvent.EveryValue, ElementValue.IsLeaf]
  exact ⟨h, (edited_one_policy { replacePolicy := .moveToEnd } mixedEdits h rfl).1⟩

end ClassDecl

end ClassTree

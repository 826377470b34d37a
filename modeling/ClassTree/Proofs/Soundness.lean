/-
# Edited classes replay without loss

A class is sound when a replay can give it back: no table lists a key twice,
every entry stands under the key that it names, nested annotations are invisible,
type annotations stand in the list of their flag, and nothing is a NaN. A blank
class is sound, and every edit keeps a class sound (`ClassDecl.Sound.apply`), if
the values that it hands over are sound and the finished parts that it stores
are. So every class that edits can reach is sound, and replays as it is
(`ClassDecl.edited_replay_beq`).

Nothing is asked of the order of events, of their number, or of whether an
interior is ever finished: an event stores an entry under the key that the event
itself names, opens nested annotations without a flag, and files a type
annotation by the flag that it was opened with.

Key definitions: `ElementValue.Sound`, `Annot.Sound`, `Metadata.Sound`,
`FieldDecl.Sound`, `MethodDecl.Sound`, `ClassDecl.Sound`, `ClassEdit.Sound`.
-/
import ClassTree.Proofs.Edits
import ClassTree.Proofs.RoundTrip

namespace ClassTree

/-! ### Values -/

namespace ElementValue

/-- The value, itself, is no NaN and no visible annotation, and it names no
element twice. -/
def SoundHere (v : ElementValue) : Prop := v.Faithful ∧ v.DistinctNames

/-- The value is sound at every depth. -/
def Sound (v : ElementValue) : Prop := v.Everywhere SoundHere

instance : DecidablePred SoundHere := fun v =>
  inferInstanceAs (Decidable ((v.NotNaN ∧ v.Invisible) ∧ v.DistinctNames))

instance : DecidablePred Sound := fun v => inferInstanceAs (Decidable (v.Everywhere SoundHere))

theorem sound_iff (v : ElementValue) :
    v.Sound ↔ v.Everywhere Faithful ∧ v.Everywhere DistinctNames :=
  everywhere_and ..

end ElementValue

/-- No element is named twice, and all of them are sound. The flag is free. -/
structure Annot.Sound (a : Annot) : Prop where
  names : a.elements.Distinct
  values : ∀ e ∈ a.elements.entries, e.2.Sound

/-- All items are sound. -/
def ValueArray.Sound (r : ValueArray) : Prop := ∀ v ∈ r.items, v.Sound

namespace ElementValue

theorem sound_annot_iff (a : Annot) : (annot a).Sound ↔ a.visible = false ∧ Annot.Sound a := by
  refine (everywhere_annot SoundHere a).trans ?_
  constructor
  · rintro ⟨⟨⟨-, hvisible⟩, hnames⟩, hvalues⟩
    exact ⟨hvisible, hnames, hvalues⟩
  · rintro ⟨hvisible, hnames, hvalues⟩
    exact ⟨⟨⟨trivial, hvisible⟩, hnames⟩, hvalues⟩

theorem sound_array_iff (r : ValueArray) : (array r).Sound ↔ ValueArray.Sound r := by
  refine (everywhere_array SoundHere r).trans ?_
  exact and_iff_right ⟨⟨trivial, trivial⟩, trivial⟩

end ElementValue

/-- Under another policy an annotation is sound if its element values are. -/
theorem Annot.Sound.setPolicy_of {a : Annot} (h : a.Sound) {p : ReplacePolicy}
    (hv : ∀ e ∈ a.elements.entries, (e.2.setPolicy p).Sound) : (Annot.setPolicy p a).Sound := by
  have helements : (Annot.setPolicy p a).elements.entries =
      (a.elements.map (ElementValue.setPolicy p)).entries :=
    ElementValue.setPolicyEntries_eq_map p _
  constructor
  · have hkeys := h.names.map (ElementValue.setPolicy p)
    unfold Table.Distinct Table.keys at hkeys ⊢
    rw [helements]
    exact hkeys
  · rw [helements]
    intro e he
    obtain ⟨e', he', rfl⟩ := List.mem_map.mp he
    exact hv e' he'

theorem ValueArray.sound_setPolicy_of {r : ValueArray} {p : ReplacePolicy}
    (hv : ∀ v ∈ r.items, (v.setPolicy p).Sound) : (ValueArray.setPolicy p r).Sound := by
  have hitems : (ValueArray.setPolicy p r).items = r.items.map (ElementValue.setPolicy p) :=
    ElementValue.setPolicyItems_eq_map p _
  intro v hmem
  rw [hitems] at hmem
  obtain ⟨w, hw, rfl⟩ := List.mem_map.mp hmem
  exact hv w hw

/-- Soundness does not read policies. -/
theorem ElementValue.Sound.setPolicy (p : ReplacePolicy) {v : ElementValue} :
    v.Sound → (v.setPolicy p).Sound := by
  induction v using ElementValue.induct with
  | annot a ih =>
    intro h
    obtain ⟨hvisible, hannot⟩ := (sound_annot_iff a).mp h
    rw [setPolicy_annot, sound_annot_iff]
    exact ⟨hvisible, hannot.setPolicy_of fun e he => ih e he (hannot.values e he)⟩
  | array r ih =>
    intro h
    have hitems := (sound_array_iff r).mp h
    rw [setPolicy_array, sound_array_iff]
    exact ValueArray.sound_setPolicy_of fun v hv => ih v hv (hitems v hv)
  | _ => exact id

theorem Annot.Sound.setPolicy {a : Annot} (h : a.Sound) (p : ReplacePolicy) :
    (Annot.setPolicy p a).Sound :=
  h.setPolicy_of fun e he => (h.values e he).setPolicy p

theorem ValueArray.Sound.setPolicy {r : ValueArray} (h : r.Sound) (p : ReplacePolicy) :
    (ValueArray.setPolicy p r).Sound :=
  ValueArray.sound_setPolicy_of fun v hv => (h v hv).setPolicy p

/-! ### Element events -/

theorem Annot.sound_blank (d : String) (visible : Bool) (p : ReplacePolicy) :
    (Annot.blank d visible p).Sound :=
  ⟨Table.distinct_empty p, fun _ he => absurd he List.not_mem_nil⟩

/-- An annotation stays sound when sound elements are set. -/
theorem Annot.Sound.absorbAll_of {a : Annot} (h : a.Sound) {es : List ElementEvent}
    (hes : ∀ x ∈ es.filterMap (ElementEvent.element? a.elements.policy), x.2.Sound) :
    (Annot.absorbAll a es).Sound := by
  rw [Annot.absorbAll_eq]
  refine ⟨h.names.insertAll _, fun e he => ?_⟩
  rcases Table.mem_entries_insertAll he with he | he
  · exact h.values e he
  · exact hes e he

theorem ValueArray.Sound.absorbAll_of {r : ValueArray} (h : r.Sound) {es : List ElementEvent}
    (hes : ∀ x ∈ es.filterMap (ElementEvent.element? r.policy), x.2.Sound) :
    (ValueArray.absorbAll r es).Sound := by
  rw [ValueArray.absorbAll_eq]
  intro v hv
  rcases List.mem_append.mp hv with hv | hv
  · exact h v hv
  · obtain ⟨x, hx, rfl⟩ := List.mem_map.mp hv
    exact hes x hx

/-- Sound values are put together to sound ones: a table is filled from nothing,
and a nested annotation is opened without a flag. -/
theorem ElementValue.sound_builds (p : ReplacePolicy) : Builds p Sound Sound where
  value := fun _ h => h
  enum := fun _ _ => ⟨⟨trivial, trivial⟩, trivial⟩
  annot := by
    intro d es h
    refine (sound_annot_iff _).mpr ⟨rfl, (Table.distinct_empty p).insertAll es, fun e he => ?_⟩
    rcases Table.mem_entries_insertAll he with he | he
    · cases he
    · exact h e he
  array := fun vs h => (sound_array_iff ⟨vs, p⟩).mpr h

theorem Annot.Sound.absorbAll {a : Annot} (h : a.Sound) {es : List ElementEvent}
    (hes : ElementEvent.EveryValueAll ElementValue.Sound es) : (Annot.absorbAll a es).Sound :=
  h.absorbAll_of ((ElementValue.sound_builds _).elements es hes)

theorem ValueArray.sound_absorbAll_blank (p : ReplacePolicy) {es : List ElementEvent}
    (hes : ElementEvent.EveryValueAll ElementValue.Sound es) :
    (ValueArray.absorbAll (ValueArray.blank p) es).Sound :=
  ValueArray.Sound.absorbAll_of (fun _ hv => absurd hv List.not_mem_nil)
    ((ElementValue.sound_builds p).elements es hes)

/-! ### Metadata -/

/-- Annotations stand under their own descriptors and type annotations in the
list of their flag, and all of them are sound. -/
structure Metadata.Sound (m : Metadata) : Prop where
  annots : m.annots.Holds (·.descriptor) Annot.Sound
  types : ∀ visible, ∀ a ∈ (m.typeAnnots visible).toList, a.annot.visible = visible ∧ a.annot.Sound

namespace Metadata

theorem sound_blank (p : ReplacePolicy) : (blank p).Sound where
  annots := Table.holds_empty ..
  types := fun visible _ ha => by cases visible <;> exact absurd ha List.not_mem_nil

/-- **Every event keeps metadata sound.** -/
theorem Sound.absorb {m : Metadata} (h : m.Sound) {e : MemberEvent}
    (he : e.EveryValue ElementValue.Sound) : (m.absorb e).Sound := by
  cases e with
  | annot d visible body =>
    have hannot := (Annot.sound_blank d visible m.policy).absorbAll he
    have hkey := Annot.descriptor_absorbAll (Annot.blank d visible m.policy) body
    rw [absorb_annot]
    exact ⟨h.annots.insert hkey.symm hannot, h.types⟩
  | typeAnnot ref path d visible body =>
    have hannot := (Annot.sound_blank d visible m.policy).absorbAll he
    rw [absorb_typeAnnot]
    refine ⟨?_, fun flag a ha => ?_⟩
    · cases visible <;> exact h.annots
    · -- the new entry is in the list of the flag that it was opened with
      rw [toList_typeAnnots_push] at ha
      rcases List.mem_append.mp ha with ha | ha
      · exact h.types flag a ha
      · split at ha
        · rename_i hflag
          cases List.mem_singleton.mp ha
          exact ⟨(Annot.visible_absorbAll ..).trans hflag, hannot⟩
        · cases ha
  | extension x => exact ⟨h.annots, h.types⟩
  | finish => exact h

theorem Sound.absorbAll {m : Metadata} (h : m.Sound) {es : List MemberEvent}
    (hes : ∀ e ∈ es, e.EveryValue ElementValue.Sound) : (m.absorbAll es).Sound := by
  induction es generalizing m with
  | nil => exact h
  | cons e es ih =>
    rw [List.forall_mem_cons] at hes
    exact ih (h.absorb hes.1) hes.2

theorem Sound.setPolicy {m : Metadata} (h : m.Sound) (p : ReplacePolicy) :
    (m.setPolicy p).Sound where
  annots := h.annots.map (f := Annot.setPolicy p) (fun _ => rfl) (fun _ ha => ha.setPolicy p) p
  types := by
    intro visible a ha
    have hlist : ((m.setPolicy p).typeAnnots visible).toList = (m.typeAnnots visible).toList.map
        fun a => { a with annot := Annot.setPolicy p a.annot } := by
      cases visible <;> exact AttrList.toList_map ..
    rw [hlist] at ha
    obtain ⟨b, hb, rfl⟩ := List.mem_map.mp ha
    obtain ⟨hvisible, hsound⟩ := h.types visible b hb
    exact ⟨hvisible, hsound.setPolicy p⟩

theorem Sound.insertAnnot {m : Metadata} (h : m.Sound) {a : Annot} (ha : a.Sound) :
    (m.insertAnnot a).Sound :=
  ⟨h.annots.insert rfl (ha.setPolicy m.policy), h.types⟩

theorem Sound.removeAnnot {m : Metadata} (h : m.Sound) (d : String) : (m.removeAnnot d).Sound :=
  ⟨h.annots.erase d, h.types⟩

end Metadata

/-! ### Members -/

/-- The constant is no NaN and the metadata is sound. -/
structure FieldDecl.Sound (f : FieldDecl) : Prop where
  constant : ∀ k ∈ f.value, k.NotNaN
  metadata : f.metadata.Sound

/-- The metadata is sound, and so is the default, if there is one. -/
structure MethodDecl.Sound (m : MethodDecl) : Prop where
  metadata : m.metadata.Sound
  annotDefault : ∀ r ∈ m.annotDefault, ValueArray.Sound r

/-- The annotation that an edit stores is sound, and its event hands over what it
may. -/
def PartEdit.Sound {ε : Type} (may : ε → Prop) : PartEdit ε → Prop
  | .event e => may e
  | .insertAnnot a => Annot.Sound a
  | .removeAnnot _ => True

namespace FieldDecl

theorem sound_absorbAll_blank {head : FieldHead} (hk : ∀ k ∈ head.value, k.NotNaN)
    {es : List MemberEvent} (hes : ∀ e ∈ es, e.EveryValue ElementValue.Sound) (p : ReplacePolicy) :
    ((blank head p).absorbAll es).Sound := by
  rw [absorbAll_eq]
  exact ⟨hk, (Metadata.sound_blank p).absorbAll hes⟩

theorem Sound.setPolicy {f : FieldDecl} (h : f.Sound) (p : ReplacePolicy) : (f.setPolicy p).Sound :=
  ⟨h.constant, h.metadata.setPolicy p⟩

/-- Every edit keeps a field sound. -/
theorem Sound.apply {f : FieldDecl} (h : f.Sound) {edit : PartEdit MemberEvent}
    (he : edit.Sound (MemberEvent.EveryValue ElementValue.Sound)) : (f.apply edit).Sound := by
  cases edit with
  | event e => exact ⟨h.constant, h.metadata.absorb he⟩
  | insertAnnot a => exact ⟨h.constant, h.metadata.insertAnnot he⟩
  | removeAnnot d => exact ⟨h.constant, h.metadata.removeAnnot d⟩

theorem name_apply (f : FieldDecl) (edit : PartEdit MemberEvent) :
    (f.apply edit).name = f.name := by
  cases edit <;> rfl

end FieldDecl

namespace MethodDecl

theorem sound_blank (head : MethodHead) (p : ReplacePolicy) : (blank head p).Sound :=
  ⟨Metadata.sound_blank p, fun _ hr => absurd hr (Option.not_mem_none _)⟩

theorem Sound.absorb {m : MethodDecl} (h : m.Sound) {e : MethodEvent}
    (he : e.EveryValue ElementValue.Sound) : (m.absorb e).Sound := by
  cases e with
  | member e => exact ⟨h.metadata.absorb he, h.annotDefault⟩
  | parameter p => exact ⟨h.metadata, h.annotDefault⟩
  | annotDefault body =>
    refine ⟨h.metadata, fun r hr => ?_⟩
    cases hr
    exact ValueArray.sound_absorbAll_blank m.metadata.policy he
  | code c => exact ⟨h.metadata, h.annotDefault⟩

theorem Sound.absorbAll {m : MethodDecl} (h : m.Sound) {es : List MethodEvent}
    (hes : ∀ e ∈ es, e.EveryValue ElementValue.Sound) : (m.absorbAll es).Sound := by
  induction es generalizing m with
  | nil => exact h
  | cons e es ih =>
    rw [List.forall_mem_cons] at hes
    exact ih (h.absorb hes.1) hes.2

theorem Sound.setPolicy {m : MethodDecl} (h : m.Sound) (p : ReplacePolicy) :
    (m.setPolicy p).Sound where
  metadata := h.metadata.setPolicy p
  annotDefault := by
    intro r hr
    obtain ⟨s, hs, rfl⟩ := Option.map_eq_some_iff.mp hr
    exact ValueArray.Sound.setPolicy (h.annotDefault s hs) p

/-- Every edit keeps a method sound. -/
theorem Sound.apply {m : MethodDecl} (h : m.Sound) {edit : PartEdit MethodEvent}
    (he : edit.Sound (MethodEvent.EveryValue ElementValue.Sound)) : (m.apply edit).Sound := by
  cases edit with
  | event e => exact h.absorb he
  | insertAnnot a => exact ⟨h.metadata.insertAnnot he, h.annotDefault⟩
  | removeAnnot d => exact ⟨h.metadata.removeAnnot d, h.annotDefault⟩

theorem key_apply (m : MethodDecl) (edit : PartEdit MethodEvent) : (m.apply edit).key = m.key := by
  cases edit with
  | event e => cases e <;> rfl
  | _ => rfl

end MethodDecl

/-! ### Classes -/

/-- The class, its components, its fields and its methods are sound, and fields
and methods stand under their own keys. -/
structure ClassDecl.Sound (c : ClassDecl) : Prop where
  metadata : c.metadata.Sound
  components : ∀ d ∈ c.components.toList, d.metadata.Sound
  fields : c.fields.Holds (·.name) FieldDecl.Sound
  methods : c.methods.Holds (·.key) MethodDecl.Sound

/-- The constant of the field that an event opens. -/
def ClassEvent.constant? : ClassEvent → Option Constant
  | .field head _ => head.value
  | _ => none

/-- Whatever an event hands over is sound: the values of its interior, and the
constant of a field. -/
structure ClassEvent.Sound (e : ClassEvent) : Prop where
  values : e.EveryValue ElementValue.Sound
  constant : ∀ k ∈ e.constant?, k.NotNaN

/-- Whatever an edit hands over is sound: the values and constants of its event,
and the finished part that it stores. -/
def ClassEdit.Sound : ClassEdit → Prop
  | .event e => e.Sound
  | .insertAnnot a => Annot.Sound a
  | .insertField f => f.Sound
  | .editField _ edit => edit.Sound (MemberEvent.EveryValue ElementValue.Sound)
  | .insertMethod m => m.Sound
  | .editMethod _ edit => edit.Sound (MethodEvent.EveryValue ElementValue.Sound)
  | _ => True

namespace ClassDecl

theorem sound_blank (c : Config) : (blank c).Sound where
  metadata := Metadata.sound_blank _
  components := fun _ hd => absurd hd List.not_mem_nil
  fields := Table.holds_empty ..
  methods := Table.holds_empty ..

/-- **Every event keeps a class sound.** -/
theorem Sound.absorb {c : ClassDecl} (h : c.Sound) {e : ClassEvent} (he : e.Sound) :
    (c.absorb e).Sound := by
  have hvalues := he.values
  cases e with
  | member e => exact { h with metadata := h.metadata.absorb hvalues }
  | component head body =>
    have hnew := (Metadata.sound_blank c.policy).absorbAll hvalues
    rw [absorb_component]
    refine { h with components := fun d hd => ?_ }
    rcases List.mem_append.mp hd with hd | hd
    · exact h.components d hd
    · cases List.mem_singleton.mp hd
      rw [ComponentDecl.absorbAll_eq]
      exact hnew
  | field head body =>
    have hnew := FieldDecl.sound_absorbAll_blank he.constant hvalues c.policy
    have hkey := congrArg FieldHead.name ((FieldDecl.blank head c.policy).head_absorbAll body)
    rw [absorb_field]
    exact { h with fields := h.fields.insert hkey.symm hnew }
  | method head body =>
    have hnew := (MethodDecl.sound_blank head c.policy).absorbAll hvalues
    have hkey := congrArg MethodHead.key ((MethodDecl.blank head c.policy).head_absorbAll body)
    rw [absorb_method]
    exact { h with methods := h.methods.insert hkey.symm hnew }
  | _ => exact ⟨h.metadata, h.components, h.fields, h.methods⟩

/-- **Every edit keeps a class sound.** -/
theorem Sound.apply {c : ClassDecl} (h : c.Sound) {edit : ClassEdit} (he : edit.Sound) :
    (c.apply edit).Sound := by
  cases edit with
  | event e => exact h.absorb he
  | insertAnnot a => exact { h with metadata := h.metadata.insertAnnot he }
  | removeAnnot d => exact { h with metadata := h.metadata.removeAnnot d }
  | insertField f => exact { h with fields := h.fields.insert rfl (FieldDecl.Sound.setPolicy he _) }
  | removeField name => exact { h with fields := h.fields.erase name }
  | editField name edit =>
    have hfields := h.fields.modify name (FieldDecl.name_apply · edit) fun _ hf => hf.apply he
    exact { h with fields := hfields }
  | insertMethod m =>
    exact { h with methods := h.methods.insert rfl (MethodDecl.Sound.setPolicy he _) }
  | removeMethod key => exact { h with methods := h.methods.erase key }
  | editMethod key edit =>
    have hmethods := h.methods.modify key (MethodDecl.key_apply · edit) fun _ hm => hm.apply he
    exact { h with methods := hmethods }

theorem Sound.applyAll {c : ClassDecl} (h : c.Sound) {edits : List ClassEdit}
    (he : ∀ edit ∈ edits, edit.Sound) : (c.applyAll edits).Sound := by
  induction edits generalizing c with
  | nil => exact h
  | cons edit edits ih =>
    rw [List.forall_mem_cons] at he
    exact ih (h.apply he.1) he.2

end ClassDecl

/-! ### What soundness gives -/

namespace Metadata

/-- What follows from the soundness of an annotation holds of all of them. -/
theorem Sound.everyAnnot {m : Metadata} (h : m.Sound) {Q : Annot → Prop}
    (hQ : ∀ a, Annot.Sound a → Q a) : m.EveryAnnot Q :=
  ⟨fun a ha => hQ a (h.annots.values a ha),
    fun visible a ha => hQ a.annot (h.types visible a ha).2⟩

theorem Sound.faithful {m : Metadata} (h : m.Sound) : m.Faithful :=
  ⟨h.annots.keyed, fun visible a ha => (h.types visible a ha).1,
    h.everyAnnot fun _ ha e he => ((ElementValue.sound_iff _).mp (ha.values e he)).1⟩

end Metadata

namespace ClassDecl

theorem Sound.everyMetadata {c : ClassDecl} (h : c.Sound) : c.EveryMetadata Metadata.Sound :=
  (everyMetadata_iff _ c).mpr ⟨h.metadata, h.components,
    fun f hf => (h.fields.values f hf).metadata, fun m hm => (h.methods.values m hm).metadata⟩

theorem Sound.distinct {c : ClassDecl} (h : c.Sound) : c.Distinct where
  fields := h.fields.distinct
  methods := h.methods.distinct
  annots := fun n hn => (h.everyMetadata n hn).annots.distinct
  elements := fun n hn => (h.everyMetadata n hn).everyAnnot fun _ ha => ha.names
  values := by
    have hnames : ∀ v : ElementValue, v.Sound → v.Everywhere ElementValue.DistinctNames :=
      fun v hv => (v.sound_iff.mp hv).2
    refine ⟨fun n hn => ?_, fun m hm r hr v hv => ?_⟩
    · exact (h.everyMetadata n hn).everyAnnot fun _ ha e he => hnames e.2 (ha.values e he)
    · exact hnames v ((h.methods.values m hm).annotDefault r hr v hv)

theorem Sound.faithful {c : ClassDecl} (h : c.Sound) : c.Faithful where
  fieldKeys := h.fields.keyed
  methodKeys := h.methods.keyed
  metadata := fun n hn => (h.everyMetadata n hn).faithful
  constants := fun f hf => (h.fields.values f hf).constant
  defaults := fun m hm r hr v hv =>
    ((ElementValue.sound_iff v).mp ((h.methods.values m hm).annotDefault r hr v hv)).1

/-- **Every class that edits lead to replays without loss.** From nothing, any
sequence of edits, in any order, leads to a class whose tables list no key twice,
whose entries stand under their own keys, whose nested annotations are invisible,
whose type annotations stand in the list of their flag and which holds no NaN; a
replay gives it back, under any configuration. -/
theorem edited_replay_beq (c : Config) (edits : List ClassEdit)
    (h : ∀ edit ∈ edits, edit.Sound) {m : ClassDecl} (hm : (blank c).applyAll edits = m) :
    (m.Distinct ∧ m.OwnKeys ∧ m.NestedInvisible ∧ m.TypesFiled ∧ m.NaNFree) ∧
      ∀ d : Config, ((blank d).absorbAll m.events == m) = true := by
  have hsound : m.Sound := hm ▸ (sound_blank c).applyAll h
  refine ⟨⟨hsound.distinct, m.faithful_iff.mp hsound.faithful⟩, fun d => ?_⟩
  exact (replay_beq_iff_faithful hsound.distinct d).mpr hsound.faithful

/-- A field is opened and left unfinished, another one is stored, the first is
annotated further, and the second is taken out. -/
def twoFieldEdits : List ClassEdit :=
  [.event (.field ⟨.empty, "x", "F", none, some (.float ⟨0⟩)⟩
      [.annot "LA;" true [.value "v" (.annot ⟨"LB;", false, .empty .inPlace⟩)]]),
    .insertField (.blank ⟨.empty, "y", "J", none, none⟩ .moveToEnd),
    .editField "x" (.event (.typeAnnot 0 none "LC;" false [.annot "w" "LD;" []])),
    .removeField "y"]

theorem twoFieldEdits_replay_beq :
    (∀ edit ∈ twoFieldEdits, edit.Sound) ∧
      ((blank {}).absorbAll ((blank {}).applyAll twoFieldEdits).events ==
        (blank {}).applyAll twoFieldEdits) = true := by
  have hvalue : (ElementValue.annot ⟨"LB;", false, .empty .inPlace⟩).Sound := by decide
  have h : ∀ edit ∈ twoFieldEdits, edit.Sound := by
    unfold twoFieldEdits
    simp only [List.forall_mem_cons]
    refine ⟨⟨?_, ?_⟩, ⟨?_, Metadata.sound_blank _⟩, ?_, trivial, fun _ he => nomatch he⟩
    · simp [ClassEvent.EveryValue, MemberEvent.EveryValue, ElementEvent.EveryValueAll,
        ElementEvent.EveryValue, hvalue]
    · decide
    · decide
    · simp [ClassEdit.Sound, PartEdit.Sound, MemberEvent.EveryValue, ElementEvent.EveryValueAll,
        ElementEvent.EveryValue]
  exact ⟨h, (edited_replay_beq {} twoFieldEdits h rfl).2 {}⟩

end ClassDecl

end ClassTree

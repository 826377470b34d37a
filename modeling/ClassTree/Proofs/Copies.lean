/-
# What a replay builds

A replay lists a class as events and the receiver absorbs them. The copy of a
part is what its events build in a blank place; it keeps the head of the part,
takes the policy of its place at every depth, and drops what the events do not
carry: the flags of nested annotations and the keys of tables whose entries
name themselves.

`ClassDecl.absorbAll_events` gives the state of a receiver after a replay:
tables take the copies under the keys that they name, lists take the copies at
their end, optional sections are overwritten when the replayed class has them.
Copying twice is copying once (`ElementValue.copy_copy` and its companions for
the larger parts), since the first copy already has the shape that the second
would give it.

Key definitions: `ElementValue.copy`, `Annot.copy`, `Metadata.copy`,
`FieldDecl.copy`, `MethodDecl.copy`, `ModuleDecl.copy`.
-/
import ClassTree.Proofs.Absorption

namespace ClassTree

/-! ### Values and annotations -/

/-- The annotation that the events of `a` build under a flag. -/
def Annot.copy (p : ReplacePolicy) (visible : Bool) (a : Annot) : Annot :=
  Annot.absorbAll (Annot.blank a.descriptor visible p) (Annot.events a)

/-- The array that the events of `r` build. -/
def ValueArray.copy (p : ReplacePolicy) (r : ValueArray) : ValueArray :=
  ValueArray.absorbAll (ValueArray.blank p) (ValueArray.events r)

/-- The value that the event of `v` builds. Nested annotations are opened
without their flag. -/
def ElementValue.copy (p : ReplacePolicy) : ElementValue → ElementValue
  | .annot a => .annot (Annot.copy p false a)
  | .array r => .array (ValueArray.copy p r)
  | v => v

namespace ElementValue

theorem element?_event (p : ReplacePolicy) (name : String) (v : ElementValue) :
    (v.event name).element? p = some (name, v.copy p) := by
  cases v <;> simp [event, ElementEvent.element?, copy, Annot.copy, ValueArray.copy, Annot.events,
    ValueArray.events]

theorem filterMap_entryEvents (p : ReplacePolicy) : ∀ es : List (String × ElementValue),
    (entryEvents es).filterMap (ElementEvent.element? p) = es.map fun e => (e.1, e.2.copy p)
  | [] => by simp [entryEvents, ElementEvent.element?]
  | (name, v) :: es => by
    rw [entryEvents, List.filterMap_cons_some (element?_event p name v), filterMap_entryEvents p es]
    rfl

theorem filterMap_itemEvents (p : ReplacePolicy) : ∀ vs : List ElementValue,
    ((itemEvents vs).filterMap (ElementEvent.element? p)).map (·.2) = vs.map (copy p)
  | [] => by simp [itemEvents, ElementEvent.element?]
  | v :: vs => by
    rw [itemEvents, List.filterMap_cons_some (element?_event p "" v), List.map_cons,
      filterMap_itemEvents p vs]
    rfl

end ElementValue

theorem Annot.copy_eq (p : ReplacePolicy) (visible : Bool) (a : Annot) :
    a.copy p visible = ⟨a.descriptor, visible,
      (Table.empty p).insertAll (a.elements.entries.map fun e => (e.1, e.2.copy p))⟩ := by
  unfold Annot.copy
  rw [Annot.absorbAll_eq]
  simp [Annot.blank, Annot.events, ElementValue.filterMap_entryEvents]

/-- An annotation that names no element twice keeps their order. -/
theorem Annot.copy_eq_of_distinct {a : Annot} (ha : a.elements.Distinct) (p : ReplacePolicy)
    (visible : Bool) : a.copy p visible =
      ⟨a.descriptor, visible, (a.elements.map (ElementValue.copy p)).setPolicy p⟩ := by
  have hfill : (Table.empty p).insertAll (a.elements.map (ElementValue.copy p)).entries =
      (a.elements.map (ElementValue.copy p)).setPolicy p :=
    Table.insertAll_empty_of_nodup (ha.map (ElementValue.copy p)) p
  rw [Annot.copy_eq, ← hfill]
  rfl

theorem ValueArray.copy_eq (p : ReplacePolicy) (r : ValueArray) :
    r.copy p = ⟨r.items.map (ElementValue.copy p), p⟩ := by
  unfold ValueArray.copy
  rw [ValueArray.absorbAll_eq]
  simp [ValueArray.blank, ValueArray.events, ElementValue.filterMap_itemEvents]

/-- Elements that copy to themselves leave an annotation a fixed copy. -/
theorem Annot.copy_copy_of (p : ReplacePolicy) (visible : Bool) (a : Annot)
    (h : ∀ e ∈ a.elements.entries, (e.2.copy p).copy p = e.2.copy p) :
    (a.copy p visible).copy p visible = a.copy p visible := by
  have hfix : (a.elements.entries.map fun e => (e.1, e.2.copy p)).map
      (fun e => (e.1, e.2.copy p)) = a.elements.entries.map fun e => (e.1, e.2.copy p) := by
    rw [List.map_map]
    exact List.map_congr_left fun e he => by simp [h e he]
  have hfill := Table.map_insertAll (ElementValue.copy p)
    (a.elements.entries.map fun e => (e.1, e.2.copy p)) (Table.empty p)
  rw [hfix] at hfill
  rw [Annot.copy_eq p visible (a.copy p visible), Annot.copy_eq p visible a]
  congr 1
  calc (Table.empty p).insertAll (((Table.empty p).insertAll
          (a.elements.entries.map fun e => (e.1, e.2.copy p))).map (ElementValue.copy p)).entries
      = (Table.empty p).insertAll ((Table.empty p).insertAll
          (a.elements.entries.map fun e => (e.1, e.2.copy p))).entries := by rw [hfill]; rfl
    _ = (Table.empty p).insertAll (a.elements.entries.map fun e => (e.1, e.2.copy p)) :=
        Table.insertAll_insertAll rfl (Table.distinct_empty p) _

theorem ElementValue.copy_copy (p : ReplacePolicy) (v : ElementValue) :
    (v.copy p).copy p = v.copy p := by
  induction v using ElementValue.induct with
  | annot a ih => exact congrArg ElementValue.annot (Annot.copy_copy_of p false a ih)
  | array r ih =>
    simp only [ElementValue.copy, ValueArray.copy_eq, List.map_map]
    rw [List.map_congr_left (f := ElementValue.copy p ∘ ElementValue.copy p)
      (g := ElementValue.copy p) ih]
  | _ => rfl

theorem Annot.copy_copy (p : ReplacePolicy) (visible : Bool) (a : Annot) :
    (a.copy p visible).copy p visible = a.copy p visible :=
  Annot.copy_copy_of p visible a fun e _ => e.2.copy_copy p

theorem ValueArray.copy_copy (p : ReplacePolicy) (r : ValueArray) :
    (r.copy p).copy p = r.copy p := by
  have h := (ElementValue.array r).copy_copy p
  simpa [ElementValue.copy] using h

/-! ### Metadata -/

/-- The type annotation that the event of `a` builds in the list of a flag. -/
def TypeAnnot.copy (p : ReplacePolicy) (visible : Bool) (a : TypeAnnot) : TypeAnnot :=
  { a with annot := Annot.copy p visible a.annot }

/-- The metadata that the events of `m` build. -/
def Metadata.copy (p : ReplacePolicy) (m : Metadata) : Metadata := (Metadata.blank p).absorbAll m.events

theorem TypeAnnot.copy_copy (p : ReplacePolicy) (visible : Bool) (a : TypeAnnot) :
    (a.copy p visible).copy p visible = a.copy p visible := by
  simp only [TypeAnnot.copy, Annot.copy_copy]

namespace Metadata

/-- An annotation copied as it is, flag included. -/
abbrev copyAnnot (p : ReplacePolicy) (a : Annot) : Annot := a.copy p a.visible

theorem filterMap_annot?_events (p : ReplacePolicy) (m : Metadata) :
    m.events.filterMap (MemberEvent.annot? p) =
      Table.rekeyed (·.descriptor) (copyAnnot p) m.annots.values := by
  simp [events, annotEvent, typeAnnotEvent, Table.rekeyed, Annot.copy, Function.comp_def]

theorem filterMap_typeAnnot?_events (p : ReplacePolicy) (visible : Bool) (m : Metadata) :
    m.events.filterMap (MemberEvent.typeAnnot? p visible) =
      (m.typeAnnots visible).toList.map (TypeAnnot.copy p visible) := by
  cases visible <;>
    simp [events, annotEvent, typeAnnotEvent, typeAnnots, TypeAnnot.copy, Annot.copy,
      Function.comp_def]

theorem filterMap_extension?_events (m : Metadata) :
    m.events.filterMap MemberEvent.extension? = m.extensions.toList := by
  simp [events, annotEvent, typeAnnotEvent, Function.comp_def]

/-- Metadata after a replay of other metadata into it. -/
theorem absorbAll_events (n m : Metadata) :
    n.absorbAll m.events =
      { annots := n.annots.insertAll
          (Table.rekeyed (·.descriptor) (copyAnnot n.policy) m.annots.values)
        visibleTypeAnnots :=
          n.visibleTypeAnnots.pushAll (m.visibleTypeAnnots.toList.map (TypeAnnot.copy n.policy true))
        invisibleTypeAnnots :=
          n.invisibleTypeAnnots.pushAll
            (m.invisibleTypeAnnots.toList.map (TypeAnnot.copy n.policy false))
        extensions := n.extensions.pushAll m.extensions.toList } := by
  rw [absorbAll_eq, filterMap_annot?_events, filterMap_typeAnnot?_events,
    filterMap_typeAnnot?_events, filterMap_extension?_events]
  rfl

theorem descriptor_copyAnnot (p : ReplacePolicy) (a : Annot) :
    (copyAnnot p a).descriptor = a.descriptor := by
  rw [copyAnnot, Annot.copy_eq]

theorem copyAnnot_copyAnnot (p : ReplacePolicy) (a : Annot) :
    copyAnnot p (copyAnnot p a) = copyAnnot p a := by
  have hv : (copyAnnot p a).visible = a.visible := by rw [copyAnnot, Annot.copy_eq]
  show (copyAnnot p a).copy p (copyAnnot p a).visible = _
  rw [hv]
  exact Annot.copy_copy p a.visible a

/-- **Replaying metadata is associative.** -/
theorem absorbAll_events_absorbAll {x b : Metadata} (hp : x.policy = b.policy)
    (hd : b.annots.Distinct) (hk : b.annots.KeyedBy (·.descriptor)) (a : Metadata) :
    x.absorbAll (b.absorbAll a.events).events = (x.absorbAll b.events).absorbAll a.events := by
  have hx := policy_absorbAll x b.events
  rw [absorbAll_events (x.absorbAll b.events) a, hx, absorbAll_events x b,
    absorbAll_events x (b.absorbAll a.events), absorbAll_events b a, ← hp]
  congr 1
  · exact Table.insertAll_rekeyed hp hd hk (descriptor_copyAnnot _) (copyAnnot_copyAnnot _) _
  · exact AttrList.pushAll_map_pushAll (TypeAnnot.copy_copy _ true) _ _ _
  · exact AttrList.pushAll_map_pushAll (TypeAnnot.copy_copy _ false) _ _ _
  · rw [AttrList.toList_pushAll, AttrList.pushAll_append]

theorem copy_copy (p : ReplacePolicy) (m : Metadata) : (m.copy p).copy p = m.copy p :=
  absorbAll_events_absorbAll (x := blank p) (b := blank p) rfl (Table.distinct_empty p)
    (Table.keyedBy_empty _ p) m

end Metadata

/-! ### Members and modules -/

/-- The component that the event of `c` builds. -/
def ComponentDecl.copy (p : ReplacePolicy) (c : ComponentDecl) : ComponentDecl :=
  (ComponentDecl.blank c.toComponentHead p).absorbAll c.body

/-- The field that the event of `f` builds. -/
def FieldDecl.copy (p : ReplacePolicy) (f : FieldDecl) : FieldDecl :=
  (FieldDecl.blank f.toFieldHead p).absorbAll f.body

/-- The method that the event of `m` builds. -/
def MethodDecl.copy (p : ReplacePolicy) (m : MethodDecl) : MethodDecl :=
  (MethodDecl.blank m.toMethodHead p).absorbAll m.body

/-- The module that the event of `m` builds. -/
def ModuleDecl.copy (m : ModuleDecl) : ModuleDecl := (ModuleDecl.blank m.toModuleHead).absorbAll m.body

theorem ComponentDecl.copy_eq (p : ReplacePolicy) (c : ComponentDecl) :
    c.copy p = { c with metadata := c.metadata.copy p } := by
  unfold ComponentDecl.copy body
  rw [ComponentDecl.absorbAll_eq, Metadata.absorbAll_append_finish]
  rfl

theorem FieldDecl.copy_eq (p : ReplacePolicy) (f : FieldDecl) :
    f.copy p = { f with metadata := f.metadata.copy p } := by
  unfold FieldDecl.copy body
  rw [FieldDecl.absorbAll_eq, Metadata.absorbAll_append_finish]
  rfl

theorem MethodDecl.copy_eq (p : ReplacePolicy) (m : MethodDecl) :
    m.copy p =
      { m with
        parameters := AttrList.absent.pushAll m.parameters.toList
        annotDefault := m.annotDefault.map (ValueArray.copy p)
        metadata := m.metadata.copy p } := by
  have hmeta : (Metadata.blank p).absorbAll (m.metadata.events ++ [.finish]) = m.metadata.copy p :=
    Metadata.absorbAll_append_finish ..
  unfold MethodDecl.copy body
  rw [MethodDecl.absorbAll_eq]
  simp [blank, Function.comp_def, Option.toList_map, List.filterMap_cons, hmeta]
  rfl

theorem ModuleDecl.copy_eq (m : ModuleDecl) :
    m.copy =
      { m with
        packages := AttrList.absent.pushAll m.packages.toList
        requires := AttrList.absent.pushAll m.requires.toList
        exports := AttrList.absent.pushAll m.exports.toList
        opens := AttrList.absent.pushAll m.opens.toList
        uses := AttrList.absent.pushAll m.uses.toList
        provides := AttrList.absent.pushAll m.provides.toList } := by
  unfold ModuleDecl.copy body
  rw [ModuleDecl.absorbAll_eq]
  simp [blank, Function.comp_def, Option.toList_map, List.filterMap_cons]

theorem ComponentDecl.copy_copy (p : ReplacePolicy) (c : ComponentDecl) :
    (c.copy p).copy p = c.copy p := by
  simp only [ComponentDecl.copy_eq, Metadata.copy_copy]

theorem FieldDecl.copy_copy (p : ReplacePolicy) (f : FieldDecl) : (f.copy p).copy p = f.copy p := by
  simp only [FieldDecl.copy_eq, Metadata.copy_copy]

theorem MethodDecl.copy_copy (p : ReplacePolicy) (m : MethodDecl) : (m.copy p).copy p = m.copy p := by
  simp [MethodDecl.copy_eq, Metadata.copy_copy, ValueArray.copy_copy, Function.comp_def]

theorem ModuleDecl.copy_copy (m : ModuleDecl) : m.copy.copy = m.copy := by
  simp [ModuleDecl.copy_eq]

theorem FieldDecl.name_copy (p : ReplacePolicy) (f : FieldDecl) : (f.copy p).name = f.name := by
  rw [FieldDecl.copy_eq]

theorem MethodDecl.key_copy (p : ReplacePolicy) (m : MethodDecl) : (m.copy p).key = m.key := by
  rw [MethodDecl.copy_eq]

/-! ### Classes -/

namespace ClassDecl

/-- Both source strings, if either is there. -/
def source? (c : ClassDecl) : Option (Option String × Option String) :=
  if c.sourceFile.isSome || c.sourceDebug.isSome then some (c.sourceFile, c.sourceDebug) else none

theorem sourceEvents_eq (c : ClassDecl) :
    c.sourceEvents = (c.source?.map fun s => ClassEvent.source s.1 s.2).toList := by
  unfold sourceEvents source?
  split <;> rfl

/-- **A class after a replay of another class into it.** -/
theorem absorbAll_events (x m : ClassDecl) :
    x.absorbAll m.events =
      { toClassHeader := m.toClassHeader
        sourceFile := (m.source?.getD (x.sourceFile, x.sourceDebug)).1
        sourceDebug := (m.source?.getD (x.sourceFile, x.sourceDebug)).2
        moduleInfo := (m.moduleInfo.map ModuleDecl.copy).or x.moduleInfo
        outerClass := m.outerClass.or x.outerClass
        nestHost := m.nestHost.or x.nestHost
        metadata := x.metadata.absorbAll m.metadata.events
        nestMembers := x.nestMembers.pushAll m.nestMembers.toList
        permittedSubtypes := x.permittedSubtypes.pushAll m.permittedSubtypes.toList
        innerClasses := x.innerClasses ++ m.innerClasses
        components := x.components.pushAll (m.components.toList.map (ComponentDecl.copy x.policy))
        fields := x.fields.insertAll (Table.rekeyed (·.name) (FieldDecl.copy x.policy) m.fields.values)
        methods :=
          x.methods.insertAll (Table.rekeyed (·.key) (MethodDecl.copy x.policy) m.methods.values)
        config := x.config } := by
  have hmeta : x.metadata.absorbAll (m.metadata.events ++ [.finish]) =
      x.metadata.absorbAll m.metadata.events := Metadata.absorbAll_append_finish ..
  have hmodule : (fun d : ModuleDecl => (ModuleDecl.blank d.toModuleHead).absorbAll d.body) =
      ModuleDecl.copy := rfl
  have hcomponent : (fun d : ComponentDecl =>
      (ComponentDecl.blank d.toComponentHead x.policy).absorbAll d.body) =
        ComponentDecl.copy x.policy := rfl
  rw [absorbAll_eq]
  unfold events
  rw [sourceEvents_eq]
  simp [Function.comp_def, Option.toList_map, List.filterMap_cons, hmeta, hmodule, hcomponent,
    ModuleDecl.event, InnerClass.event, ComponentDecl.event, FieldDecl.event, FieldDecl.copy,
    MethodDecl.event, MethodDecl.copy, Table.rekeyed]

end ClassDecl

end ClassTree

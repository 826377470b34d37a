/-
# The contents of a class

What a class says, apart from how it is stored: `ClassDecl.contents` gives every
table and array of a class the default policy, at any depth, makes every list
present, and resets the configuration. Two classes have the same contents when
they differ in nothing else.

Neither a replay nor a comparison reads what is reset here: the contents have
the events of the class (`ClassDecl.events_contents`) and compare with any class
as it does (`ClassDecl.beq_contents`).
-/
import ClassTree.Class.Replay
import ClassTree.Proofs.Filling

namespace ClassTree

/-! ### Lists and tables -/

/-- The attribute with its entries, present. -/
def AttrList.contents {α : Type u} (l : AttrList α) : AttrList α := .ofList l.toList

@[simp] theorem AttrList.toList_contents {α : Type u} (l : AttrList α) :
    l.contents.toList = l.toList := rfl

theorem AttrList.beq_contents {α : Type u} [BEq α] (l m : AttrList α) :
    (l == m.contents) = (l == m) := rfl

/-- An edit that comparisons do not see is not seen along a list. -/
theorem beq_map_of_beq {α : Type u} [BEq α] (f : α → α) : ∀ (xs : List α) (ys : List α),
    (∀ y ∈ ys, ∀ x, (x == f y) = (x == y)) → (xs == ys.map f) = (xs == ys)
  | [], [], _ => rfl
  | [], _ :: _, _ => rfl
  | _ :: _, [], _ => rfl
  | x :: xs, y :: ys, h => by
    show (x == f y && xs == ys.map f) = (x == y && xs == ys)
    rw [h y List.mem_cons_self x,
      beq_map_of_beq f xs ys fun z hz => h z (List.mem_cons_of_mem y hz)]

theorem AttrList.beq_map_contents {α : Type u} [BEq α] (f : α → α)
    (h : ∀ x y : α, (x == f y) = (x == y)) (l m : AttrList α) :
    (l == (m.map f).contents) = (l == m) := by
  show (l.toList == (m.map f).toList) = (l.toList == m.toList)
  rw [AttrList.toList_map]
  exact beq_map_of_beq f _ _ fun y _ x => h x y

namespace Table

variable {κ : Type u} {ν : Type v}

/-- The table with every value edited, under the default policy. -/
def recast (f : ν → ν) (t : Table κ ν) : Table κ ν := (t.map f).setPolicy .inPlace

@[simp] theorem values_recast (f : ν → ν) (t : Table κ ν) :
    (t.recast f).values = t.values.map f := by
  simp [recast, Table.map, Table.setPolicy, Table.values]

theorem beq_recast [BEq κ] [BEq ν] (f : ν → ν) (h : ∀ x y : ν, (x == f y) = (x == y))
    (s t : Table κ ν) : (s == t.recast f) = (s == t) := by
  refine beq_map_of_beq (fun e : κ × ν => (e.1, f e.2)) s.entries t.entries fun y _ x => ?_
  show (x.1 == y.1 && x.2 == f y.2) = (x.1 == y.1 && x.2 == y.2)
  rw [h]

end Table

/-! ### Values and annotations -/

namespace ElementValue

theorem setPolicy_annot (p : ReplacePolicy) (a : Annot) :
    (annot a).setPolicy p = annot (Annot.setPolicy p a) := by
  obtain ⟨d, v, ⟨es, q⟩⟩ := a
  rw [setPolicy]
  rfl

theorem setPolicy_array (p : ReplacePolicy) (r : ValueArray) :
    (array r).setPolicy p = array (ValueArray.setPolicy p r) := by
  obtain ⟨vs, q⟩ := r
  rw [setPolicy]
  rfl

theorem entryEvents_setPolicy_of {p : ReplacePolicy} : ∀ {es : List (String × ElementValue)},
    (∀ e ∈ es, ∀ name, (e.2.setPolicy p).event name = e.2.event name) →
      entryEvents (setPolicyEntries p es) = entryEvents es
  | [], _ => rfl
  | (k, v) :: es, h => by
    rw [setPolicyEntries, entryEvents, entryEvents, h (k, v) List.mem_cons_self,
      entryEvents_setPolicy_of fun e he => h e (List.mem_cons_of_mem _ he)]

theorem itemEvents_setPolicy_of {p : ReplacePolicy} : ∀ {vs : List ElementValue},
    (∀ v ∈ vs, ∀ name, (v.setPolicy p).event name = v.event name) →
      itemEvents (setPolicyItems p vs) = itemEvents vs
  | [], _ => rfl
  | v :: vs, h => by
    rw [setPolicyItems, itemEvents, itemEvents, h v List.mem_cons_self,
      itemEvents_setPolicy_of fun w hw => h w (List.mem_cons_of_mem _ hw)]

/-- The event of a value does not carry policies. -/
theorem event_setPolicy (p : ReplacePolicy) (v : ElementValue) :
    ∀ name, (v.setPolicy p).event name = v.event name := by
  induction v using ElementValue.induct with
  | annot a ih =>
    intro name
    obtain ⟨d, v, ⟨es, q⟩⟩ := a
    rw [setPolicy, event, event, entryEvents_setPolicy_of ih]
  | array r ih =>
    intro name
    obtain ⟨vs, q⟩ := r
    rw [setPolicy, event, event, itemEvents_setPolicy_of ih]
  | _ => intro name; rfl

/-- The comparison of values does not read policies. -/
theorem beq_setPolicy (p : ReplacePolicy) (w : ElementValue) :
    ∀ v : ElementValue, (v == w.setPolicy p) = (v == w) := by
  induction w using ElementValue.induct with
  | annot a ih =>
    intro v
    obtain ⟨d, f, ⟨es, q⟩⟩ := a
    rw [setPolicy, setPolicyEntries_eq_map]
    cases v with
    | annot b =>
      rw [annot_beq_annot, annot_beq_annot]
      show (b.descriptor == d && b.visible == f && b.elements.entries == es.map _) =
        (b.descriptor == d && b.visible == f && b.elements.entries == es)
      rw [beq_map_of_beq]
      intro e he x
      show (x.1 == e.1 && x.2 == e.2.setPolicy p) = (x.1 == e.1 && x.2 == e.2)
      rw [ih e he]
    | _ => rfl
  | array r ih =>
    intro v
    obtain ⟨vs, q⟩ := r
    rw [setPolicy, setPolicyItems_eq_map]
    cases v with
    | array s =>
      rw [array_beq_array, array_beq_array]
      show (s.items == vs.map _) = (s.items == vs)
      rw [beq_map_of_beq]
      exact fun w hw x => ih w hw x
    | _ => rfl
  | _ => intro v; rfl

end ElementValue

namespace Annot

theorem events_setPolicy (p : ReplacePolicy) (a : Annot) :
    Annot.events (Annot.setPolicy p a) = Annot.events a :=
  ElementValue.entryEvents_setPolicy_of fun e _ => e.2.event_setPolicy p

theorem beq_setPolicy (p : ReplacePolicy) (a b : Annot) : (a == Annot.setPolicy p b) = (a == b) := by
  have h := (ElementValue.annot b).beq_setPolicy p (.annot a)
  rwa [ElementValue.setPolicy_annot, ElementValue.annot_beq_annot,
    ElementValue.annot_beq_annot] at h

end Annot

namespace ValueArray

theorem events_setPolicy (p : ReplacePolicy) (r : ValueArray) :
    ValueArray.events (ValueArray.setPolicy p r) = ValueArray.events r :=
  ElementValue.itemEvents_setPolicy_of fun v _ => v.event_setPolicy p

theorem beq_setPolicy (p : ReplacePolicy) (r s : ValueArray) :
    (r == ValueArray.setPolicy p s) = (r == s) := by
  have h := (ElementValue.array s).beq_setPolicy p (.array r)
  rwa [ElementValue.setPolicy_array, ElementValue.array_beq_array,
    ElementValue.array_beq_array] at h

end ValueArray

/-! ### Metadata and members -/

/-- The type annotation under the default policy. -/
def TypeAnnot.contents (a : TypeAnnot) : TypeAnnot :=
  { a with annot := Annot.setPolicy .inPlace a.annot }

theorem TypeAnnot.beq_contents (a b : TypeAnnot) : (a == b.contents) = (a == b) := by
  show (a.typeRef == b.typeRef && a.typePath == b.typePath &&
    a.annot == Annot.setPolicy .inPlace b.annot) = _
  rw [Annot.beq_setPolicy]
  rfl

/-- The metadata under the default policy, with its lists present. -/
def Metadata.contents (m : Metadata) : Metadata where
  annots := m.annots.recast (Annot.setPolicy .inPlace)
  visibleTypeAnnots := (m.visibleTypeAnnots.map TypeAnnot.contents).contents
  invisibleTypeAnnots := (m.invisibleTypeAnnots.map TypeAnnot.contents).contents
  extensions := m.extensions.contents

theorem Metadata.events_contents (m : Metadata) : m.contents.events = m.events := by
  have hannot : annotEvent ∘ Annot.setPolicy .inPlace = annotEvent := by
    funext a
    simp only [Function.comp_apply, annotEvent, Annot.events_setPolicy]
    rfl
  have htype : ∀ visible, typeAnnotEvent visible ∘ TypeAnnot.contents = typeAnnotEvent visible := by
    intro visible
    funext a
    simp only [Function.comp_apply, typeAnnotEvent, TypeAnnot.contents, Annot.events_setPolicy]
    rfl
  simp only [events, contents, Table.values_recast, AttrList.toList_contents, AttrList.toList_map,
    List.map_map, hannot, htype]

theorem Metadata.beq_contents (m n : Metadata) : (m == n.contents) = (m == n) := by
  show (m.annots == n.annots.recast (Annot.setPolicy .inPlace) &&
    m.visibleTypeAnnots == (n.visibleTypeAnnots.map TypeAnnot.contents).contents &&
    m.invisibleTypeAnnots == (n.invisibleTypeAnnots.map TypeAnnot.contents).contents &&
    m.extensions == n.extensions.contents) = _
  rw [Table.beq_recast _ (Annot.beq_setPolicy .inPlace),
    AttrList.beq_map_contents _ TypeAnnot.beq_contents,
    AttrList.beq_map_contents _ TypeAnnot.beq_contents, AttrList.beq_contents]
  rfl

/-- The component with the contents of its metadata. -/
def ComponentDecl.contents (c : ComponentDecl) : ComponentDecl :=
  { c with metadata := c.metadata.contents }

/-- The field with the contents of its metadata. -/
def FieldDecl.contents (f : FieldDecl) : FieldDecl := { f with metadata := f.metadata.contents }

/-- The method with the contents of its interior. -/
def MethodDecl.contents (m : MethodDecl) : MethodDecl :=
  { m with
    parameters := m.parameters.contents
    annotDefault := m.annotDefault.map (ValueArray.setPolicy .inPlace)
    metadata := m.metadata.contents }

/-- The module with its lists present. -/
def ModuleDecl.contents (m : ModuleDecl) : ModuleDecl :=
  { m with
    packages := m.packages.contents
    requires := m.requires.contents
    exports := m.exports.contents
    opens := m.opens.contents
    uses := m.uses.contents
    provides := m.provides.contents }

theorem ComponentDecl.event_contents (c : ComponentDecl) : c.contents.event = c.event := by
  unfold ComponentDecl.event body
  simp only [contents, Metadata.events_contents]

theorem FieldDecl.event_contents (f : FieldDecl) : f.contents.event = f.event := by
  unfold FieldDecl.event body
  simp only [contents, Metadata.events_contents]

theorem MethodDecl.event_contents (m : MethodDecl) : m.contents.event = m.event := by
  unfold MethodDecl.event body
  simp only [contents, Metadata.events_contents, AttrList.toList_contents, Option.map_map,
    Function.comp_def, ValueArray.events_setPolicy]

theorem ModuleDecl.event_contents (m : ModuleDecl) : m.contents.event = m.event := rfl

theorem ComponentDecl.beq_contents (c d : ComponentDecl) : (c == d.contents) = (c == d) := by
  show (c.toComponentHead == d.toComponentHead && c.metadata == d.metadata.contents) = _
  rw [Metadata.beq_contents]
  rfl

theorem FieldDecl.beq_contents (f g : FieldDecl) : (f == g.contents) = (f == g) := by
  show (f.toFieldHead == g.toFieldHead && f.metadata == g.metadata.contents) = _
  rw [Metadata.beq_contents]
  rfl

theorem MethodDecl.beq_contents (m n : MethodDecl) : (m == n.contents) = (m == n) := by
  have hdefault : (m.annotDefault == n.annotDefault.map (ValueArray.setPolicy .inPlace)) =
      (m.annotDefault == n.annotDefault) := by
    cases m.annotDefault with
    | none => cases n.annotDefault <;> rfl
    | some r =>
      cases n.annotDefault with
      | none => rfl
      | some s => exact ValueArray.beq_setPolicy .inPlace r s
  show (m.toMethodHead == n.toMethodHead && m.parameters == n.parameters.contents &&
    m.annotDefault == n.annotDefault.map (ValueArray.setPolicy .inPlace) &&
    m.metadata == n.metadata.contents && m.code == n.code) = _
  rw [hdefault, Metadata.beq_contents, AttrList.beq_contents]
  rfl

theorem ModuleDecl.beq_contents (m n : ModuleDecl) : (m == n.contents) = (m == n) := rfl

/-! ### Classes -/

/-- What the class says, apart from how it is stored. -/
def ClassDecl.contents (c : ClassDecl) : ClassDecl :=
  { c with
    moduleInfo := c.moduleInfo.map ModuleDecl.contents
    metadata := c.metadata.contents
    nestMembers := c.nestMembers.contents
    permittedSubtypes := c.permittedSubtypes.contents
    components := (c.components.map ComponentDecl.contents).contents
    fields := c.fields.recast FieldDecl.contents
    methods := c.methods.recast MethodDecl.contents
    config := {} }

theorem ClassDecl.events_contents (c : ClassDecl) : c.contents.events = c.events := by
  simp only [events, sourceEvents, contents, Metadata.events_contents, Table.values_recast,
    AttrList.toList_contents, AttrList.toList_map, List.map_map, Option.map_map, Function.comp_def,
    ComponentDecl.event_contents, FieldDecl.event_contents, MethodDecl.event_contents,
    ModuleDecl.event_contents]
  rfl

theorem ClassDecl.beq_contents (c d : ClassDecl) : (c == d.contents) = (c == d) := by
  have hmodule : (c.moduleInfo == d.moduleInfo.map ModuleDecl.contents) =
      (c.moduleInfo == d.moduleInfo) := by
    cases c.moduleInfo with
    | none => cases d.moduleInfo <;> rfl
    | some m => cases d.moduleInfo <;> rfl
  show (c.toClassHeader == d.toClassHeader && c.sourceFile == d.sourceFile &&
    c.sourceDebug == d.sourceDebug && c.moduleInfo == d.moduleInfo.map ModuleDecl.contents &&
    c.outerClass == d.outerClass && c.nestHost == d.nestHost && c.metadata == d.metadata.contents &&
    c.nestMembers == d.nestMembers.contents && c.permittedSubtypes == d.permittedSubtypes.contents &&
    c.innerClasses == d.innerClasses &&
    c.components == (d.components.map ComponentDecl.contents).contents &&
    c.fields == d.fields.recast FieldDecl.contents &&
    c.methods == d.methods.recast MethodDecl.contents) = _
  rw [hmodule, Metadata.beq_contents, AttrList.beq_contents, AttrList.beq_contents,
    AttrList.beq_map_contents _ ComponentDecl.beq_contents,
    Table.beq_recast _ FieldDecl.beq_contents, Table.beq_recast _ MethodDecl.beq_contents]
  rfl

end ClassTree

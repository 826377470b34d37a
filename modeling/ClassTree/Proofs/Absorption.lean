/-
# What a run of events builds

The state after any sequence of events, in any order, in closed form. Each
event contributes to one place: a table takes the entries that its events
build, in order (`Table.insertAll`), a list attribute takes them at its end
(`AttrList.pushAll`), and an optional attribute keeps what its last event
said, or what was there (`Option.or`). An opening event builds its entity from
its own interior alone, in a blank entity of the policy at hand, so nothing of
what stood there before is left.

The closed forms are `Annot.absorbAll_eq`, `ValueArray.absorbAll_eq`,
`Metadata.absorbAll_eq`, `MethodDecl.absorbAll_eq`, `ModuleDecl.absorbAll_eq`
and `ClassDecl.absorbAll_eq`; later proofs read the contributions off a
sequence of events and never run it.

Key definitions: `ElementEvent.element?`, `MemberEvent.annot?`,
`MemberEvent.typeAnnot?`, `ClassEvent.field?`, `ClassEvent.method?`.
-/
import ClassTree.Class.Replay
import ClassTree.Proofs.Filling

namespace ClassTree

/-! ### Elements -/

/-- The element that an event sets in a place of a policy. -/
def ElementEvent.element? (p : ReplacePolicy) : ElementEvent → Option (String × ElementValue)
  | .value name v => some (name, v)
  | .enum name d c => some (name, .enum d c)
  | .annot name d body => some (name, .annot (Annot.absorbAll (Annot.blank d false p) body))
  | .array name body => some (name, .array (ValueArray.absorbAll (ValueArray.blank p) body))
  | .finish => none

theorem Annot.absorb_eq (a : Annot) (e : ElementEvent) :
    a.absorb e = { a with elements := a.elements.insertAll (e.element? a.elements.policy).toList } := by
  cases e with
  | value name v => rw [Annot.absorb]; rfl
  | enum name d c => rw [Annot.absorb]; rfl
  | annot name d body => rw [Annot.absorb_annot]; rfl
  | array name body => rw [Annot.absorb_array]; rfl
  | finish => rw [Annot.absorb]; rfl

theorem ValueArray.absorb_eq (r : ValueArray) (e : ElementEvent) :
    r.absorb e = { r with items := r.items ++ ((e.element? r.policy).map (·.2)).toList } := by
  cases e with
  | value name v => rw [ValueArray.absorb]; rfl
  | enum name d c => rw [ValueArray.absorb]; rfl
  | annot name d body => rw [ValueArray.absorb_annot]; rfl
  | array name body => rw [ValueArray.absorb_array]; rfl
  | finish => rw [ValueArray.absorb]; simp [ElementEvent.element?]

/-- **An annotation after a run of element events.** -/
theorem Annot.absorbAll_eq (a : Annot) (es : List ElementEvent) :
    a.absorbAll es =
      { a with
        elements := a.elements.insertAll
          (es.filterMap (ElementEvent.element? a.elements.policy)) } := by
  induction es generalizing a with
  | nil => rw [Annot.absorbAll]; rfl
  | cons e es ih =>
    rw [Annot.absorbAll, ih, Annot.absorb_eq]
    simp only [Table.policy_insertAll, ← Table.insertAll_append]
    cases h : e.element? a.elements.policy <;> simp [h]

/-- **An array after a run of element events.** -/
theorem ValueArray.absorbAll_eq (r : ValueArray) (es : List ElementEvent) :
    r.absorbAll es =
      { r with items := r.items ++ (es.filterMap (ElementEvent.element? r.policy)).map (·.2) } := by
  induction es generalizing r with
  | nil => rw [ValueArray.absorbAll]; simp
  | cons e es ih =>
    rw [ValueArray.absorbAll, ih, ValueArray.absorb_eq]
    cases h : e.element? r.policy <;> simp [h]

theorem Annot.descriptor_absorbAll (a : Annot) (es : List ElementEvent) :
    (a.absorbAll es).descriptor = a.descriptor := by
  rw [Annot.absorbAll_eq]

theorem Annot.visible_absorbAll (a : Annot) (es : List ElementEvent) :
    (a.absorbAll es).visible = a.visible := by
  rw [Annot.absorbAll_eq]

/-! ### Metadata -/

namespace MemberEvent

/-- The annotation that an event adds, under its key. -/
@[simp] def annot? (p : ReplacePolicy) : MemberEvent → Option (String × Annot)
  | .annot d visible body => some (d, Annot.absorbAll (Annot.blank d visible p) body)
  | _ => none

/-- The type annotation that an event adds to the list of a flag. -/
@[simp] def typeAnnot? (p : ReplacePolicy) (flag : Bool) : MemberEvent → Option TypeAnnot
  | .typeAnnot ref path d visible body =>
    if visible = flag then some ⟨ref, path, Annot.absorbAll (Annot.blank d visible p) body⟩
    else none
  | _ => none

/-- The extension that an event adds. -/
@[simp] def extension? : MemberEvent → Option Extension
  | .extension x => some x
  | _ => none

end MemberEvent

namespace Metadata

theorem absorb_annot (m : Metadata) (d : String) (visible : Bool) (body : List ElementEvent) :
    m.absorb (.annot d visible body) =
      { m with
        annots := m.annots.insert d (Annot.absorbAll (Annot.blank d visible m.policy) body) } := by
  simp only [absorb, Table.modify_insert]

theorem absorb_typeAnnot (m : Metadata) (ref : UInt32) (path : Option TypePath) (d : String)
    (visible : Bool) (body : List ElementEvent) :
    m.absorb (.typeAnnot ref path d visible body) = m.modifyTypeAnnots visible
      (·.push ⟨ref, path, Annot.absorbAll (Annot.blank d visible m.policy) body⟩) := by
  simp only [absorb, AttrList.modifyLast_push]

theorem toList_typeAnnots_push (m : Metadata) (visible flag : Bool) (a : TypeAnnot) :
    ((m.modifyTypeAnnots visible (·.push a)).typeAnnots flag).toList =
      (m.typeAnnots flag).toList ++ if visible = flag then [a] else [] := by
  cases visible <;> cases flag <;> simp [modifyTypeAnnots, typeAnnots]

/-- **Metadata after a run of member events.** -/
theorem absorbAll_eq (m : Metadata) (es : List MemberEvent) :
    m.absorbAll es =
      { annots := m.annots.insertAll (es.filterMap (MemberEvent.annot? m.policy))
        visibleTypeAnnots :=
          m.visibleTypeAnnots.pushAll (es.filterMap (MemberEvent.typeAnnot? m.policy true))
        invisibleTypeAnnots :=
          m.invisibleTypeAnnots.pushAll (es.filterMap (MemberEvent.typeAnnot? m.policy false))
        extensions := m.extensions.pushAll (es.filterMap MemberEvent.extension?) } := by
  induction es generalizing m with
  | nil => rfl
  | cons e es ih =>
    rw [show m.absorbAll (e :: es) = (m.absorb e).absorbAll es from rfl, ih]
    cases e with
    | annot d visible body =>
      rw [absorb_annot]
      simp [policy, List.filterMap_cons]
    | typeAnnot ref path d visible body =>
      rw [absorb_typeAnnot]
      cases visible <;> simp [policy, modifyTypeAnnots, List.filterMap_cons]
    | extension x => simp [policy, absorb, List.filterMap_cons]
    | finish => simp [policy, absorb, List.filterMap_cons]

@[simp] theorem policy_blank (p : ReplacePolicy) : (blank p).policy = p := rfl

theorem policy_absorbAll (m : Metadata) (es : List MemberEvent) :
    (m.absorbAll es).policy = m.policy := by
  rw [absorbAll_eq]
  exact Table.policy_insertAll _ _

theorem absorbAll_append_finish (n : Metadata) (es : List MemberEvent) :
    n.absorbAll (es ++ [.finish]) = n.absorbAll es :=
  List.foldl_append

end Metadata

/-! ### Members -/

/-- The last event of an optional section is the section. -/
@[simp] theorem getLast?_toList {α : Type u} (o : Option α) : o.toList.getLast? = o := by
  cases o <;> rfl

theorem ComponentDecl.absorbAll_eq (c : ComponentDecl) (es : List MemberEvent) :
    c.absorbAll es = { c with metadata := c.metadata.absorbAll es } := by
  induction es generalizing c with
  | nil => rfl
  | cons e es ih => exact ih (c.absorb e)

theorem ComponentDecl.head_absorbAll (c : ComponentDecl) (es : List MemberEvent) :
    (c.absorbAll es).toComponentHead = c.toComponentHead := by
  rw [ComponentDecl.absorbAll_eq]

theorem FieldDecl.absorbAll_eq (f : FieldDecl) (es : List MemberEvent) :
    f.absorbAll es = { f with metadata := f.metadata.absorbAll es } := by
  induction es generalizing f with
  | nil => rfl
  | cons e es ih => exact ih (f.absorb e)

theorem FieldDecl.head_absorbAll (f : FieldDecl) (es : List MemberEvent) :
    (f.absorbAll es).toFieldHead = f.toFieldHead := by
  rw [FieldDecl.absorbAll_eq]

namespace MethodEvent

/-- What an event says about the metadata. -/
@[simp] def member? : MethodEvent → Option MemberEvent
  | .member e => some e
  | _ => none

@[simp] def parameter? : MethodEvent → Option Parameter
  | .parameter p => some p
  | _ => none

/-- The default value that an event builds. -/
@[simp] def annotDefault? (p : ReplacePolicy) : MethodEvent → Option ValueArray
  | .annotDefault body => some (ValueArray.absorbAll (ValueArray.blank p) body)
  | _ => none

@[simp] def code? : MethodEvent → Option Code
  | .code c => some c
  | _ => none

end MethodEvent

/-- **A method after a run of method events.** -/
theorem MethodDecl.absorbAll_eq (m : MethodDecl) (es : List MethodEvent) :
    m.absorbAll es =
      { m with
        parameters := m.parameters.pushAll (es.filterMap MethodEvent.parameter?)
        annotDefault :=
          (es.filterMap (MethodEvent.annotDefault? m.metadata.policy)).getLast?.or m.annotDefault
        metadata := m.metadata.absorbAll (es.filterMap MethodEvent.member?)
        code := (es.filterMap MethodEvent.code?).getLast?.or m.code } := by
  induction es generalizing m with
  | nil => rfl
  | cons e es ih =>
    rw [show m.absorbAll (e :: es) = (m.absorb e).absorbAll es from rfl, ih]
    cases e with
    | member e =>
      have hp : (m.metadata.absorb e).policy = m.metadata.policy := m.metadata.policy_absorbAll [e]
      simp [absorb, hp, Metadata.absorbAll, List.filterMap_cons]
    | parameter p => simp [absorb, List.filterMap_cons]
    | annotDefault body => simp [absorb, List.filterMap_cons, List.getLast?_cons]
    | code c => simp [absorb, List.filterMap_cons, List.getLast?_cons]

theorem MethodDecl.head_absorbAll (m : MethodDecl) (es : List MethodEvent) :
    (m.absorbAll es).toMethodHead = m.toMethodHead := by
  rw [MethodDecl.absorbAll_eq]

/-! ### Modules -/

namespace ModuleEvent

@[simp] def mainClass? : ModuleEvent → Option String
  | .mainClass name => some name
  | _ => none

@[simp] def package? : ModuleEvent → Option String
  | .package name => some name
  | _ => none

@[simp] def requires? : ModuleEvent → Option Requirement
  | .requires r => some r
  | _ => none

@[simp] def exports? : ModuleEvent → Option PackageGrant
  | .exports g => some g
  | _ => none

@[simp] def opens? : ModuleEvent → Option PackageGrant
  | .opens g => some g
  | _ => none

@[simp] def uses? : ModuleEvent → Option String
  | .uses service => some service
  | _ => none

@[simp] def provides? : ModuleEvent → Option Provision
  | .provides p => some p
  | _ => none

end ModuleEvent

/-- **A module after a run of module events.** -/
theorem ModuleDecl.absorbAll_eq (m : ModuleDecl) (es : List ModuleEvent) :
    m.absorbAll es =
      { m with
        mainClass := (es.filterMap ModuleEvent.mainClass?).getLast?.or m.mainClass
        packages := m.packages.pushAll (es.filterMap ModuleEvent.package?)
        requires := m.requires.pushAll (es.filterMap ModuleEvent.requires?)
        exports := m.exports.pushAll (es.filterMap ModuleEvent.exports?)
        opens := m.opens.pushAll (es.filterMap ModuleEvent.opens?)
        uses := m.uses.pushAll (es.filterMap ModuleEvent.uses?)
        provides := m.provides.pushAll (es.filterMap ModuleEvent.provides?) } := by
  induction es generalizing m with
  | nil => rfl
  | cons e es ih =>
    rw [show m.absorbAll (e :: es) = (m.absorb e).absorbAll es from rfl, ih]
    cases e <;> simp [absorb, List.filterMap_cons, List.getLast?_cons]

/-! ### Classes -/

namespace ClassEvent

@[simp] def header? : ClassEvent → Option ClassHeader
  | .header h => some h
  | _ => none

/-- Both source strings; an event sets them together. -/
@[simp] def source? : ClassEvent → Option (Option String × Option String)
  | .source file debug => some (file, debug)
  | _ => none

/-- The module that an event builds. -/
@[simp] def moduleInfo? : ClassEvent → Option ModuleDecl
  | .moduleInfo head body => some ((ModuleDecl.blank head).absorbAll body)
  | _ => none

@[simp] def nestHost? : ClassEvent → Option String
  | .nestHost name => some name
  | _ => none

@[simp] def outerClass? : ClassEvent → Option OuterClass
  | .outerClass o => some o
  | _ => none

/-- What an event says about the metadata of the class itself. -/
@[simp] def member? : ClassEvent → Option MemberEvent
  | .member e => some e
  | _ => none

@[simp] def nestMember? : ClassEvent → Option String
  | .nestMember name => some name
  | _ => none

@[simp] def permittedSubtype? : ClassEvent → Option String
  | .permittedSubtype name => some name
  | _ => none

@[simp] def innerClass? : ClassEvent → Option InnerClass
  | .innerClass i => some i
  | _ => none

/-- The component that an event builds. -/
@[simp] def component? (p : ReplacePolicy) : ClassEvent → Option ComponentDecl
  | .component head body => some ((ComponentDecl.blank head p).absorbAll body)
  | _ => none

/-- The field that an event builds, under its key. -/
@[simp] def field? (p : ReplacePolicy) : ClassEvent → Option (String × FieldDecl)
  | .field head body => some (head.name, (FieldDecl.blank head p).absorbAll body)
  | _ => none

/-- The method that an event builds, under its key. -/
@[simp] def method? (p : ReplacePolicy) : ClassEvent → Option (MethodKey × MethodDecl)
  | .method head body => some (head.key, (MethodDecl.blank head p).absorbAll body)
  | _ => none

end ClassEvent

namespace ClassDecl

theorem absorb_component (c : ClassDecl) (head : ComponentHead) (body : List MemberEvent) :
    c.absorb (.component head body) =
      { c with
        components := c.components.push ((ComponentDecl.blank head c.policy).absorbAll body) } := by
  simp only [absorb, AttrList.modifyLast_push]

theorem absorb_field (c : ClassDecl) (head : FieldHead) (body : List MemberEvent) :
    c.absorb (.field head body) =
      { c with
        fields := c.fields.insert head.name ((FieldDecl.blank head c.policy).absorbAll body) } := by
  simp only [absorb, Table.modify_insert]

theorem absorb_method (c : ClassDecl) (head : MethodHead) (body : List MethodEvent) :
    c.absorb (.method head body) =
      { c with
        methods := c.methods.insert head.key ((MethodDecl.blank head c.policy).absorbAll body) } := by
  simp only [absorb, Table.modify_insert]

/-- **A class after a run of class events.** -/
theorem absorbAll_eq (c : ClassDecl) (es : List ClassEvent) :
    c.absorbAll es =
      { c with
        toClassHeader := (es.filterMap ClassEvent.header?).getLast?.getD c.toClassHeader
        sourceFile := ((es.filterMap ClassEvent.source?).getLast?.getD (c.sourceFile, c.sourceDebug)).1
        sourceDebug := ((es.filterMap ClassEvent.source?).getLast?.getD (c.sourceFile, c.sourceDebug)).2
        moduleInfo := (es.filterMap ClassEvent.moduleInfo?).getLast?.or c.moduleInfo
        nestHost := (es.filterMap ClassEvent.nestHost?).getLast?.or c.nestHost
        outerClass := (es.filterMap ClassEvent.outerClass?).getLast?.or c.outerClass
        metadata := c.metadata.absorbAll (es.filterMap ClassEvent.member?)
        nestMembers := c.nestMembers.pushAll (es.filterMap ClassEvent.nestMember?)
        permittedSubtypes := c.permittedSubtypes.pushAll (es.filterMap ClassEvent.permittedSubtype?)
        innerClasses := c.innerClasses ++ es.filterMap ClassEvent.innerClass?
        components := c.components.pushAll (es.filterMap (ClassEvent.component? c.policy))
        fields := c.fields.insertAll (es.filterMap (ClassEvent.field? c.policy))
        methods := c.methods.insertAll (es.filterMap (ClassEvent.method? c.policy)) } := by
  induction es generalizing c with
  | nil => simp [absorbAll, Metadata.absorbAll]
  | cons e es ih =>
    rw [show c.absorbAll (e :: es) = (c.absorb e).absorbAll es from rfl, ih]
    cases e with
    | header h => simp [absorb, policy, List.filterMap_cons, List.getLast?_cons]
    | source file debug => simp [absorb, policy, List.filterMap_cons, List.getLast?_cons]
    | moduleInfo head body => simp [absorb, policy, List.filterMap_cons, List.getLast?_cons]
    | nestHost name => simp [absorb, policy, List.filterMap_cons, List.getLast?_cons]
    | outerClass o => simp [absorb, policy, List.filterMap_cons, List.getLast?_cons]
    | member e => simp [absorb, policy, Metadata.absorbAll, List.filterMap_cons]
    | nestMember name => simp [absorb, policy, List.filterMap_cons]
    | permittedSubtype name => simp [absorb, policy, List.filterMap_cons]
    | innerClass i => simp [absorb, policy, List.filterMap_cons]
    | component head body =>
      rw [absorb_component]
      simp [policy, List.filterMap_cons]
    | field head body =>
      rw [absorb_field]
      simp [policy, List.filterMap_cons]
    | method head body =>
      rw [absorb_method]
      simp [policy, List.filterMap_cons]

end ClassDecl

end ClassTree

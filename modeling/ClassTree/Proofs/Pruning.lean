/-
# Pruned replays

A receiver that declines some openings of a class gets the class with those
entities hollow: declared, in their places, and empty. Hollowing out commutes
with every event (`ClassDecl.absorb_through`): to absorb the event that passed
the gate in a hollowed class is to absorb the whole event and hollow out the
result. So it commutes with a run, whatever was replaced on the way and wherever
the replacement landed, and a blank class has nothing to hollow out.

If the entries of each table name different keys, a pruned replay into a blank
class reports the declined openings, each once, in the order of the replay
(`ClassDecl.openings`), and nothing else.

Key definitions: `Annot.hollowed`, `FieldDecl.hollowed`, `MethodDecl.hollowed`,
`ClassDecl.hollowed`, `ClassDecl.openings`.
-/
import ClassTree.Proofs.Reports

namespace ClassTree

/-! ### Hollow parts

A hollow part is what its opening alone declares. A part that was built under an
opening is hollowed out to what the opening builds without its interior. -/

namespace Annot

/-- The annotation without its elements. -/
def hollow (a : Annot) : Annot := Annot.blank a.descriptor a.visible a.elements.policy

/-- The annotation, hollow if it is declined. -/
def hollowed (declines : Opening → Bool) (a : Annot) : Annot :=
  if declines (.annot a.descriptor) then Annot.hollow a else a

theorem hollow_absorbAll (d : String) (visible : Bool) (p : ReplacePolicy)
    (body : List ElementEvent) :
    Annot.hollow (Annot.absorbAll (Annot.blank d visible p) body) = Annot.blank d visible p := by
  rw [Annot.absorbAll_eq]
  unfold Annot.hollow
  rw [Table.policy_insertAll]
  rfl

theorem hollowed_absorbAll (declines : Opening → Bool) (d : String) (visible : Bool)
    (p : ReplacePolicy) (body : List ElementEvent) :
    Annot.hollowed declines (Annot.absorbAll (Annot.blank d visible p) body) =
      Annot.absorbAll (Annot.blank d visible p) (if declines (.annot d) then [] else body) := by
  unfold Annot.hollowed
  rw [Annot.descriptor_absorbAll, Annot.hollow_absorbAll]
  show (if declines (.annot d) then Annot.blank d visible p else _) = _
  split
  · rw [Annot.absorbAll]
  · rfl

end Annot

namespace TypeAnnot

/-- The type annotation, with its annotation hollow if it is declined. -/
def hollowed (declines : Opening → Bool) (a : TypeAnnot) : TypeAnnot :=
  if declines (.typeAnnot a.annot.descriptor) then { a with annot := Annot.hollow a.annot } else a

theorem hollowed_absorbAll (declines : Opening → Bool) (ref : UInt32) (path : Option TypePath)
    (d : String) (visible : Bool) (p : ReplacePolicy) (body : List ElementEvent) :
    (TypeAnnot.mk ref path (Annot.absorbAll (Annot.blank d visible p) body)).hollowed declines =
      ⟨ref, path, Annot.absorbAll (Annot.blank d visible p)
        (if declines (.typeAnnot d) then [] else body)⟩ := by
  unfold hollowed
  dsimp only
  rw [Annot.descriptor_absorbAll, Annot.hollow_absorbAll]
  show (if declines (.typeAnnot d) then TypeAnnot.mk ref path (Annot.blank d visible p) else _) = _
  split
  · rw [Annot.absorbAll]
  · rfl

end TypeAnnot

namespace ComponentDecl

/-- The component, without its metadata if it is declined. -/
def hollowed (declines : Opening → Bool) (c : ComponentDecl) : ComponentDecl :=
  if declines (.component c.name) then .blank c.toComponentHead c.metadata.policy else c

theorem hollowed_absorbAll (declines : Opening → Bool) (head : ComponentHead) (p : ReplacePolicy)
    (body : List MemberEvent) : ((blank head p).absorbAll body).hollowed declines =
      (blank head p).absorbAll (if declines (.component head.name) then [] else body) := by
  have hhead : ((blank head p).absorbAll body).toComponentHead = head := head_absorbAll ..
  have hpolicy : ((blank head p).absorbAll body).metadata.policy = p := by
    rw [absorbAll_eq]
    exact Metadata.policy_absorbAll ..
  unfold hollowed
  rw [hhead, hpolicy]
  split <;> rfl

end ComponentDecl

namespace FieldDecl

/-- The field, without its metadata if it is declined. -/
def hollowed (declines : Opening → Bool) (f : FieldDecl) : FieldDecl :=
  if declines (.field f.name) then .blank f.toFieldHead f.metadata.policy else f

theorem hollowed_absorbAll (declines : Opening → Bool) (head : FieldHead) (p : ReplacePolicy)
    (body : List MemberEvent) : ((blank head p).absorbAll body).hollowed declines =
      (blank head p).absorbAll (if declines (.field head.name) then [] else body) := by
  have hhead : ((blank head p).absorbAll body).toFieldHead = head := head_absorbAll ..
  have hpolicy : ((blank head p).absorbAll body).metadata.policy = p := by
    rw [absorbAll_eq]
    exact Metadata.policy_absorbAll ..
  unfold hollowed
  rw [hhead, hpolicy]
  split <;> rfl

end FieldDecl

namespace MethodDecl

/-- The method, with its head alone if it is declined. -/
def hollowed (declines : Opening → Bool) (m : MethodDecl) : MethodDecl :=
  if declines (.method m.key.text) then .blank m.toMethodHead m.metadata.policy else m

theorem hollowed_absorbAll (declines : Opening → Bool) (head : MethodHead) (p : ReplacePolicy)
    (body : List MethodEvent) : ((blank head p).absorbAll body).hollowed declines =
      (blank head p).absorbAll (if declines (.method head.key.text) then [] else body) := by
  have hhead : ((blank head p).absorbAll body).toMethodHead = head := head_absorbAll ..
  have hpolicy : ((blank head p).absorbAll body).metadata.policy = p := by
    rw [absorbAll_eq]
    exact Metadata.policy_absorbAll ..
  unfold hollowed
  rw [hhead, hpolicy]
  split <;> rfl

end MethodDecl

namespace ModuleDecl

/-- The module, without its directives if it is declined. -/
def hollowed (declines : Opening → Bool) (m : ModuleDecl) : ModuleDecl :=
  if declines (.moduleInfo m.name) then .blank m.toModuleHead else m

theorem hollowed_absorbAll (declines : Opening → Bool) (head : ModuleHead)
    (body : List ModuleEvent) : ((blank head).absorbAll body).hollowed declines =
      (blank head).absorbAll (if declines (.moduleInfo head.name) then [] else body) := by
  have hhead : ((blank head).absorbAll body).toModuleHead = head := by
    rw [absorbAll_eq]
    rfl
  unfold hollowed
  rw [hhead]
  split <;> rfl

end ModuleDecl

theorem AttrList.map_push {α : Type u} (f : α → α) (l : AttrList α) (x : α) :
    (l.push x).map f = (l.map f).push (f x) := by
  unfold push
  rw [toList_map]
  simp [AttrList.map]

/-! ### Hollowing out -/

/-- The metadata with the declined annotations and type annotations hollow. -/
def Metadata.hollowed (declines : Opening → Bool) (m : Metadata) : Metadata :=
  { m with
    annots := m.annots.map (Annot.hollowed declines)
    visibleTypeAnnots := m.visibleTypeAnnots.map (TypeAnnot.hollowed declines)
    invisibleTypeAnnots := m.invisibleTypeAnnots.map (TypeAnnot.hollowed declines) }

/-- The class with the declined entities hollow. Everything else stays. -/
def ClassDecl.hollowed (declines : Opening → Bool) (c : ClassDecl) : ClassDecl :=
  { c with
    moduleInfo := c.moduleInfo.map (ModuleDecl.hollowed declines)
    metadata := c.metadata.hollowed declines
    components := c.components.map (ComponentDecl.hollowed declines)
    fields := c.fields.map (FieldDecl.hollowed declines)
    methods := c.methods.map (MethodDecl.hollowed declines) }

theorem Metadata.absorb_through (declines : Opening → Bool) (m : Metadata) (e : MemberEvent) :
    (m.hollowed declines).absorb (e.through (!declines ·) fun _ => true) =
      (m.absorb e).hollowed declines := by
  cases e with
  | annot d visible body =>
    have hannots := Table.map_insert (Annot.hollowed declines) m.annots d
      (Annot.absorbAll (Annot.blank d visible m.policy) body)
    rw [Annot.hollowed_absorbAll] at hannots
    rw [MemberEvent.through_annot, absorb_annot, absorb_annot]
    unfold hollowed
    rw [hannots]
    rfl
  | typeAnnot ref path d visible body =>
    have htypes := fun l : AttrList TypeAnnot => AttrList.map_push (TypeAnnot.hollowed declines) l
      ⟨ref, path, Annot.absorbAll (Annot.blank d visible m.policy) body⟩
    simp only [TypeAnnot.hollowed_absorbAll] at htypes
    rw [MemberEvent.through_typeAnnot, absorb_typeAnnot, absorb_typeAnnot]
    unfold hollowed
    cases visible with
    | false =>
      simp only [modifyTypeAnnots, Bool.false_eq_true, if_false, htypes]
      rfl
    | true =>
      simp only [modifyTypeAnnots, if_true, htypes]
      rfl
  | extension x => rfl
  | finish => rfl

namespace ClassDecl

/-- **Hollowing out commutes with every event.** -/
theorem absorb_through (declines : Opening → Bool) (c : ClassDecl) (e : ClassEvent) :
    (c.hollowed declines).absorb (e.through (.pruning declines)) =
      (c.absorb e).hollowed declines := by
  -- an entry is stored under its opening alone, so it can be hollowed out before or after
  cases e with
  | member e =>
    have hmeta := c.metadata.absorb_through declines e
    rw [ClassEvent.through_member]
    simp only [absorb, hollowed, hmeta]
  | moduleInfo head body =>
    have hmodule := ModuleDecl.hollowed_absorbAll declines head body
    rw [ClassEvent.through_moduleInfo]
    simp only [absorb, hollowed, Option.map_some, hmodule]
  | component head body =>
    have hcomponents := AttrList.map_push (ComponentDecl.hollowed declines) c.components
      ((ComponentDecl.blank head c.policy).absorbAll body)
    rw [ComponentDecl.hollowed_absorbAll] at hcomponents
    rw [ClassEvent.through_component, absorb_component, absorb_component]
    unfold hollowed
    rw [hcomponents]
    rfl
  | field head body =>
    have hfields := Table.map_insert (FieldDecl.hollowed declines) c.fields head.name
      ((FieldDecl.blank head c.policy).absorbAll body)
    rw [FieldDecl.hollowed_absorbAll] at hfields
    rw [ClassEvent.through_field, absorb_field, absorb_field]
    unfold hollowed
    rw [hfields]
    rfl
  | method head body =>
    have hmethods := Table.map_insert (MethodDecl.hollowed declines) c.methods head.key
      ((MethodDecl.blank head c.policy).absorbAll body)
    rw [MethodDecl.hollowed_absorbAll] at hmethods
    rw [ClassEvent.through_method, absorb_method, absorb_method]
    unfold hollowed
    rw [hmethods]
    rfl
  | _ => rfl

/-- Hollowing out commutes with a run of events. -/
theorem absorbThrough_hollowed (declines : Opening → Bool) (es : List ClassEvent) :
    ∀ c : ClassDecl, (c.hollowed declines).absorbThrough (.pruning declines) es =
      (c.absorbAll es).hollowed declines := by
  induction es with
  | nil => exact fun _ => rfl
  | cons e es ih =>
    intro c
    have hrest := ih (c.absorb e)
    rw [← absorb_through] at hrest
    exact hrest

/-- A blank class has nothing to hollow out. -/
theorem hollowed_blank (declines : Opening → Bool) (c : Config) :
    (blank c).hollowed declines = blank c := rfl

/-! ### Reports -/

/-- What the replay of a class opens, in its order. -/
def openings (m : ClassDecl) : List Opening :=
  m.moduleInfo.toList.map (fun d => Opening.moduleInfo d.name) ++
    m.metadata.annots.values.map (fun a => Opening.annot a.descriptor) ++
    m.metadata.visibleTypeAnnots.toList.map (fun a => Opening.typeAnnot a.annot.descriptor) ++
    m.metadata.invisibleTypeAnnots.toList.map (fun a => Opening.typeAnnot a.annot.descriptor) ++
    m.components.toList.map (fun d => Opening.component d.name) ++
    m.fields.values.map (fun f => Opening.field f.name) ++
    m.methods.values.map (fun d => Opening.method d.key.text)

theorem filterMap_opening?_events (m : ClassDecl) :
    m.events.filterMap ClassEvent.opening? = m.openings := by
  unfold events
  rw [sourceEvents_eq]
  simp [openings, ClassEvent.opening?, MemberEvent.opening?, Function.comp_def, Option.toList_map,
    List.filterMap_cons, Metadata.events, Metadata.annotEvent, Metadata.typeAnnotEvent,
    ModuleDecl.event, InnerClass.event, ComponentDecl.event, FieldDecl.event, MethodDecl.event]

/-- A blank class replaces nothing. -/
theorem replacing_blank (c : Config) (head : ClassHeader) (e : ClassEvent) :
    ((blank c).absorb (.header head)).replacing e = none := by
  cases e with
  | member e => cases e <;> rfl
  | _ => rfl

theorem noticesThrough_blank_events {m : ClassDecl} (hd : m.Distinct) (hk : m.OwnKeysApart)
    (c : Config) (declines : Opening → Bool) :
    (blank c).noticesThrough (.pruning declines) m.events =
      (m.openings.filter declines).filterMap Opening.pruned? := by
  rw [noticesThrough_pruning_events hd hk, ← filterMap_opening?_events, List.filter_filterMap,
    List.filterMap_filterMap, List.filterMap_eq_flatMap_toList]
  simp only [replacing_blank, Option.toList_none, List.nil_append]

/-- **A pruned replay hollows out what was declined and does nothing else.** The
receiver ends as after the whole replay, but for the declined entities, which are
hollow. If the entries of each table name different keys, each declined entity is
reported once, in the order of the replay. -/
theorem pruned_replay_eq_hollowed (m : ClassDecl) (c : Config) (declines : Opening → Bool) :
    (blank c).absorbThrough (.pruning declines) m.events =
      ((blank c).absorbAll m.events).hollowed declines ∧
    (m.Distinct → m.OwnKeysApart →
      (blank c).noticesThrough (.pruning declines) m.events =
        (m.openings.filter declines).filterMap Opening.pruned?) := by
  have hstate := absorbThrough_hollowed declines m.events (blank c)
  rw [hollowed_blank] at hstate
  exact ⟨hstate, fun hd hk => noticesThrough_blank_events hd hk c declines⟩

/-- Metadata with one annotation, which has no elements. -/
def marked (descriptor : String) : Metadata :=
  { Metadata.blank .inPlace with
    annots := ⟨[(descriptor, Annot.blank descriptor true .inPlace)], .inPlace⟩ }

/-- A record class with a component and two fields, all of them annotated. -/
def recordClass : ClassDecl :=
  { blank {} with
    name := "R"
    components := .ofList [⟨⟨"x", "I", none⟩, marked "LC;"⟩]
    fields := ⟨[
      ("x", ⟨⟨.empty, "x", "I", none, none⟩, marked "LA;"⟩),
      ("y", ⟨⟨.empty, "y", "J", none, none⟩, marked "LB;"⟩)], .inPlace⟩ }

/-- The field `x` is declined: its head arrives and its annotation does not. The
component of the same name and the other field arrive whole. -/
theorem recordClass_pruned_replay :
    recordClass.Distinct ∧ recordClass.OwnKeysApart ∧
    ((blank {}).absorbThrough (.pruning (· = .field "x")) recordClass.events).fields.entries =
      [("x", ⟨⟨.empty, "x", "I", none, none⟩, .blank .inPlace⟩),
        ("y", ⟨⟨.empty, "y", "J", none, none⟩, marked "LB;"⟩)] ∧
    ((blank {}).absorbThrough (.pruning (· = .field "x")) recordClass.events).components.toList =
      [⟨⟨"x", "I", none⟩, marked "LC;"⟩] ∧
    (blank {}).noticesThrough (.pruning (· = .field "x")) recordClass.events =
      [.fieldPruned "x"] := by
  have hd : recordClass.Distinct := by decide
  have hk : recordClass.OwnKeysApart := by constructor <;> decide
  obtain ⟨hstate, hreport⟩ := pruned_replay_eq_hollowed recordClass {} (· = .field "x")
  rw [hstate]
  exact ⟨hd, hk, rfl, rfl, hreport hd hk⟩

end ClassDecl

end ClassTree

/-
# Canonical event sequences

The grammar of the sequences that a replay emits, written down as such: which
events stand in which order, what may not be named twice, and how an interior
ends. A canonical sequence builds a class whose replay is that very sequence,
event by event and at any depth (`ClassDecl.events_absorbAll_of_canonical`), so
nothing that it says is lost, merged or moved. The grammar is not too narrow
either: a class whose entries stand under their own keys is replayed as a
canonical sequence (`ClassDecl.canonical_events`).

The grammar has one level for each kind of interior: `ElementEvent.Canonical`
for the elements of annotations and the items of arrays, `MemberEvent.Sections`
for metadata, `MethodEvent.Canonical`, `ModuleEvent.Canonical` and
`ClassEvent.Canonical`. Each level has one lemma that says that absorbing and
replaying gives its sequences back.
-/
import ClassTree.Proofs.Copies
import ClassTree.Proofs.Everywhere

namespace ClassTree

/-! ### Elements and items -/

/-- Neither an enum constant nor an annotation nor an array. -/
def ElementValue.IsPlain : ElementValue → Prop
  | .enum _ _ => False
  | .annot _ => False
  | .array _ => False
  | _ => True

namespace ElementEvent

/-- The name that an event sets. -/
def name : ElementEvent → String
  | .value name _ => name
  | .enum name _ _ => name
  | .annot name _ _ => name
  | .array name _ => name
  | .finish => ""

/-- An event that sets an element in its canonical form. The elements of an
annotation have different names, the items of an array have the empty name,
and both end with `finish`. -/
inductive Canonical : ElementEvent → Prop
  | value (name : String) (v : ElementValue) (hv : v.IsPlain) : Canonical (.value name v)
  | enum (name d c : String) : Canonical (.enum name d c)
  | annot (name d : String) (es : List ElementEvent) (hnames : (es.map ElementEvent.name).Nodup)
      (h : ∀ e ∈ es, Canonical e) : Canonical (.annot name d (es ++ [.finish]))
  | array (name : String) (es : List ElementEvent) (hnames : ∀ e ∈ es, e.name = "")
      (h : ∀ e ∈ es, Canonical e) : Canonical (.array name (es ++ [.finish]))

/-- The interior of an annotation. -/
inductive Elements : List ElementEvent → Prop
  | intro (es : List ElementEvent) (hnames : (es.map name).Nodup) (h : ∀ e ∈ es, e.Canonical) :
    Elements (es ++ [.finish])

/-- The interior of an array or of a default. -/
inductive Items : List ElementEvent → Prop
  | intro (es : List ElementEvent) (hnames : ∀ e ∈ es, e.name = "") (h : ∀ e ∈ es, e.Canonical) :
    Items (es ++ [.finish])

/-- The event sets its name to a value that is replayed as this event. -/
def Returns (p : ReplacePolicy) (e : ElementEvent) : Prop :=
  ∃ v : ElementValue, e.element? p = some (e.name, v) ∧ v.event e.name = e

theorem keys_of_returns {p : ReplacePolicy} : ∀ {es : List ElementEvent}, (∀ e ∈ es, e.Returns p) →
    (es.filterMap (element? p)).map (·.1) = es.map name
  | [], _ => rfl
  | e :: es, h => by
    obtain ⟨v, hv, -⟩ := h e List.mem_cons_self
    rw [List.filterMap_cons_some hv, List.map_cons, List.map_cons,
      keys_of_returns fun e he => h e (List.mem_cons_of_mem _ he)]

theorem entryEvents_of_returns {p : ReplacePolicy} : ∀ {es : List ElementEvent},
    (∀ e ∈ es, e.Returns p) →
      ElementValue.entryEvents (es.filterMap (element? p)) = es ++ [.finish]
  | [], _ => by rw [List.filterMap_nil, ElementValue.entryEvents, List.nil_append]
  | e :: es, h => by
    obtain ⟨v, hv, hev⟩ := h e List.mem_cons_self
    rw [List.filterMap_cons_some hv, ElementValue.entryEvents, hev,
      entryEvents_of_returns fun e he => h e (List.mem_cons_of_mem _ he), List.cons_append]

theorem itemEvents_of_returns {p : ReplacePolicy} : ∀ {es : List ElementEvent},
    (∀ e ∈ es, e.name = "") → (∀ e ∈ es, e.Returns p) →
      ElementValue.itemEvents ((es.filterMap (element? p)).map (·.2)) = es ++ [.finish]
  | [], _, _ => by
    rw [List.filterMap_nil, List.map_nil, ElementValue.itemEvents, List.nil_append]
  | e :: es, hnames, h => by
    obtain ⟨v, hv, hev⟩ := h e List.mem_cons_self
    rw [hnames e List.mem_cons_self] at hev
    rw [List.filterMap_cons_some hv, List.map_cons, ElementValue.itemEvents, hev,
      itemEvents_of_returns (fun e he => hnames e (List.mem_cons_of_mem _ he))
        (fun e he => h e (List.mem_cons_of_mem _ he)), List.cons_append]

theorem filterMap_append_finish (p : ReplacePolicy) (es : List ElementEvent) :
    (es ++ [finish]).filterMap (element? p) = es.filterMap (element? p) := by
  simp [element?]

/-- Elements under different names are listed as they were set. -/
theorem annotEvents_of_returns {p : ReplacePolicy} {es : List ElementEvent}
    (hnames : (es.map name).Nodup) (h : ∀ e ∈ es, e.Returns p) (d : String) (visible : Bool) :
    Annot.events (Annot.absorbAll (Annot.blank d visible p) (es ++ [.finish])) = es ++ [.finish] := by
  rw [Annot.absorbAll_eq, filterMap_append_finish]
  unfold Annot.events
  have hkeys : ((es.filterMap (element? p)).map (·.1)).Nodup := by
    rw [keys_of_returns h]
    exact hnames
  show ElementValue.entryEvents ((Table.empty p).insertAll (es.filterMap (element? p))).entries = _
  rw [Table.insertAll_empty_of_nodup hkeys]
  exact entryEvents_of_returns h

theorem arrayEvents_of_returns {p : ReplacePolicy} {es : List ElementEvent}
    (hnames : ∀ e ∈ es, e.name = "") (h : ∀ e ∈ es, e.Returns p) :
    ValueArray.events (ValueArray.absorbAll (ValueArray.blank p) (es ++ [.finish])) =
      es ++ [.finish] := by
  rw [ValueArray.absorbAll_eq, filterMap_append_finish]
  exact itemEvents_of_returns hnames h

theorem Canonical.returns {e : ElementEvent} (h : e.Canonical) (p : ReplacePolicy) :
    e.Returns p := by
  induction h with
  | value name v hv =>
    refine ⟨v, rfl, ?_⟩
    cases v with
    | enum d c => exact absurd hv id
    | annot a => exact absurd hv id
    | array r => exact absurd hv id
    | _ => rfl
  | enum name d c => exact ⟨.enum d c, rfl, rfl⟩
  | annot name d es hnames _ ih =>
    refine ⟨.annot (Annot.absorbAll (Annot.blank d false p) (es ++ [.finish])), rfl, ?_⟩
    have hback := annotEvents_of_returns hnames ih d false
    have hd : (Annot.absorbAll (Annot.blank d false p) (es ++ [.finish])).descriptor = d := by
      rw [Annot.absorbAll_eq]
      rfl
    generalize Annot.absorbAll (Annot.blank d false p) (es ++ [.finish]) = a at hback hd
    obtain ⟨d', f, ⟨entries, q⟩⟩ := a
    rw [ElementValue.event, ← hd]
    exact congrArg _ hback
  | array name es hnames _ ih =>
    refine ⟨.array (ValueArray.absorbAll (ValueArray.blank p) (es ++ [.finish])), rfl, ?_⟩
    have hback := arrayEvents_of_returns hnames ih
    generalize ValueArray.absorbAll (ValueArray.blank p) (es ++ [.finish]) = r at hback
    obtain ⟨items, q⟩ := r
    rw [ElementValue.event]
    exact congrArg _ hback

/-- **An annotation built from a canonical interior is replayed as it.** -/
theorem Elements.events_absorbAll {body : List ElementEvent} (h : Elements body) (d : String)
    (visible : Bool) (p : ReplacePolicy) :
    Annot.events (Annot.absorbAll (Annot.blank d visible p) body) = body := by
  obtain ⟨es, hnames, h⟩ := h
  exact annotEvents_of_returns hnames (fun e he => (h e he).returns p) d visible

/-- **An array built from canonical items is replayed as them.** -/
theorem Items.events_absorbAll {body : List ElementEvent} (h : Items body) (p : ReplacePolicy) :
    ValueArray.events (ValueArray.absorbAll (ValueArray.blank p) body) = body := by
  obtain ⟨es, hnames, h⟩ := h
  exact arrayEvents_of_returns hnames fun e he => (h e he).returns p

end ElementEvent

/-! ### Metadata -/

/-- An annotation as an event gives it. -/
structure AnnotCall where
  descriptor : String
  visible : Bool
  body : List ElementEvent

/-- A type annotation as an event gives it, apart from its flag. -/
structure TypeAnnotCall where
  typeRef : UInt32
  typePath : Option TypePath
  descriptor : String
  body : List ElementEvent

def AnnotCall.event (a : AnnotCall) : MemberEvent := .annot a.descriptor a.visible a.body

def TypeAnnotCall.event (visible : Bool) (a : TypeAnnotCall) : MemberEvent :=
  .typeAnnot a.typeRef a.typePath a.descriptor visible a.body

namespace MemberEvent

/-- The sections of metadata: annotations with different descriptors, visible
type annotations, invisible ones, extensions. -/
inductive Sections : List MemberEvent → Prop
  | intro (annots : List AnnotCall) (visible invisible : List TypeAnnotCall)
      (extensions : List Extension) (hnodup : (annots.map (·.descriptor)).Nodup)
      (hannots : ∀ a ∈ annots, ElementEvent.Elements a.body)
      (hvisible : ∀ a ∈ visible, ElementEvent.Elements a.body)
      (hinvisible : ∀ a ∈ invisible, ElementEvent.Elements a.body) :
    Sections (annots.map AnnotCall.event ++ visible.map (TypeAnnotCall.event true) ++
      invisible.map (TypeAnnotCall.event false) ++ extensions.map .extension)

/-- The interior of a component or a field. -/
inductive Canonical : List MemberEvent → Prop
  | intro (es : List MemberEvent) (h : Sections es) : Canonical (es ++ [.finish])

end MemberEvent

theorem ElementEvent.Elements.annotEvent {body : List ElementEvent} (h : Elements body) (d : String)
    (visible : Bool) (p : ReplacePolicy) :
    Metadata.annotEvent (Annot.absorbAll (Annot.blank d visible p) body) = .annot d visible body := by
  unfold Metadata.annotEvent
  rw [h.events_absorbAll, Annot.absorbAll_eq]
  rfl

theorem ElementEvent.Elements.typeAnnotEvent {body : List ElementEvent} (h : Elements body)
    (ref : UInt32) (path : Option TypePath) (d : String) (visible : Bool) (p : ReplacePolicy) :
    Metadata.typeAnnotEvent visible ⟨ref, path, Annot.absorbAll (Annot.blank d visible p) body⟩ =
      .typeAnnot ref path d visible body := by
  unfold Metadata.typeAnnotEvent
  rw [h.events_absorbAll, Annot.absorbAll_eq]
  rfl

/-- **Metadata built from canonical sections is replayed as them.** -/
theorem MemberEvent.Sections.events_absorbAll {es : List MemberEvent} (h : Sections es) (p : ReplacePolicy) :
    ((Metadata.blank p).absorbAll es).events = es := by
  obtain ⟨annots, visible, invisible, extensions, hnodup, hannots, hvisible, hinvisible⟩ := h
  have hkeys : ((annots.map fun a => (a.descriptor,
      Annot.absorbAll (Annot.blank a.descriptor a.visible p) a.body)).map (·.1)).Nodup := by
    rw [List.map_map]
    exact hnodup
  have hannotEvents : annots.map (fun a => Metadata.annotEvent
      (Annot.absorbAll (Annot.blank a.descriptor a.visible p) a.body)) =
        annots.map AnnotCall.event :=
    List.map_congr_left fun a ha => (hannots a ha).annotEvent ..
  have htypeEvents : ∀ (flag : Bool) (calls : List TypeAnnotCall),
      (∀ a ∈ calls, ElementEvent.Elements a.body) →
        calls.map (fun a => Metadata.typeAnnotEvent flag ⟨a.typeRef, a.typePath,
          Annot.absorbAll (Annot.blank a.descriptor flag p) a.body⟩) =
            calls.map (TypeAnnotCall.event flag) :=
    fun flag calls hcalls => List.map_congr_left fun a ha => (hcalls a ha).typeAnnotEvent ..
  have hevents : ((Metadata.blank p).absorbAll (annots.map AnnotCall.event ++
      visible.map (TypeAnnotCall.event true) ++ invisible.map (TypeAnnotCall.event false) ++
      extensions.map .extension)).events =
        annots.map (fun a => Metadata.annotEvent
          (Annot.absorbAll (Annot.blank a.descriptor a.visible p) a.body)) ++
        visible.map (fun a => Metadata.typeAnnotEvent true ⟨a.typeRef, a.typePath,
          Annot.absorbAll (Annot.blank a.descriptor true p) a.body⟩) ++
        invisible.map (fun a => Metadata.typeAnnotEvent false ⟨a.typeRef, a.typePath,
          Annot.absorbAll (Annot.blank a.descriptor false p) a.body⟩) ++
        extensions.map .extension := by
    rw [Metadata.absorbAll_eq]
    simp [Metadata.events, Metadata.blank, Metadata.policy, AnnotCall.event, TypeAnnotCall.event,
      Function.comp_def, Table.insertAll_empty_of_nodup hkeys, Table.values]
  rw [hevents, hannotEvents, htypeEvents true visible hvisible,
    htypeEvents false invisible hinvisible]

/-! ### Members and modules -/

theorem MemberEvent.Canonical.componentEvent {body : List MemberEvent} (h : Canonical body)
    (head : ComponentHead) (p : ReplacePolicy) :
    ((ComponentDecl.blank head p).absorbAll body).event = .component head body := by
  obtain ⟨es, h⟩ := h
  unfold ComponentDecl.event ComponentDecl.body ComponentDecl.blank
  rw [ComponentDecl.absorbAll_eq, Metadata.absorbAll_append_finish, h.events_absorbAll]

theorem MemberEvent.Canonical.fieldEvent {body : List MemberEvent} (h : Canonical body)
    (head : FieldHead) (p : ReplacePolicy) :
    ((FieldDecl.blank head p).absorbAll body).event = .field head body := by
  obtain ⟨es, h⟩ := h
  unfold FieldDecl.event FieldDecl.body FieldDecl.blank
  rw [FieldDecl.absorbAll_eq, Metadata.absorbAll_append_finish, h.events_absorbAll]

/-- The interior of a method: parameters, the default if there is one,
metadata, the body handle if there is one, and the end. -/
inductive MethodEvent.Canonical : List MethodEvent → Prop
  | intro (parameters : List Parameter) (annotDefault : Option (List ElementEvent))
      (metadata : List MemberEvent) (code : Option Code)
      (hdefault : ∀ items ∈ annotDefault, ElementEvent.Items items)
      (hmetadata : MemberEvent.Sections metadata) :
    Canonical (parameters.map .parameter ++ (annotDefault.map .annotDefault).toList ++
      metadata.map .member ++ (code.map .code).toList ++ [.member .finish])

theorem MethodEvent.Canonical.methodEvent {body : List MethodEvent} (h : Canonical body)
    (head : MethodHead) (p : ReplacePolicy) :
    ((MethodDecl.blank head p).absorbAll body).event = .method head body := by
  obtain ⟨parameters, annotDefault, metadata, code, hdefault, hmetadata⟩ := h
  have hitems : annotDefault.toList.map (fun items => MethodEvent.annotDefault
      (ValueArray.events (ValueArray.absorbAll (ValueArray.blank p) items))) =
        annotDefault.toList.map .annotDefault := by
    refine List.map_congr_left fun items hmem => ?_
    rw [(hdefault items (Option.mem_toList.mp hmem)).events_absorbAll p]
  have hmeta : ((Metadata.blank p).absorbAll (metadata ++ [.finish])).events = metadata := by
    rw [Metadata.absorbAll_append_finish, hmetadata.events_absorbAll]
  rw [MethodDecl.absorbAll_eq]
  simp [MethodDecl.event, MethodDecl.body, MethodDecl.blank, Function.comp_def, Option.toList_map,
    List.filterMap_cons, hmeta, hitems]

/-- The directives of a module: the main class if there is one, packages,
requirements, exports, opens, uses, provisions, and the end. -/
inductive ModuleEvent.Canonical : List ModuleEvent → Prop
  | intro (mainClass : Option String) (packages : List String) (requires : List Requirement)
      (exports opens : List PackageGrant) (uses : List String) (provides : List Provision) :
    Canonical ((mainClass.map .mainClass).toList ++ packages.map .package ++
      requires.map .requires ++ exports.map .exports ++ opens.map .opens ++ uses.map .uses ++
      provides.map .provides ++ [.finish])

theorem ModuleEvent.Canonical.moduleEvent {body : List ModuleEvent} (h : Canonical body)
    (head : ModuleHead) : ((ModuleDecl.blank head).absorbAll body).event = .moduleInfo head body := by
  obtain ⟨mainClass, packages, requires, exports, opens, uses, provides⟩ := h
  rw [ModuleDecl.absorbAll_eq]
  simp [ModuleDecl.event, ModuleDecl.body, ModuleDecl.blank, Function.comp_def, Option.toList_map,
    List.filterMap_cons]

/-! ### Classes -/

/-- A class in canonical order. Every section may be empty; a source event has
at least one string, and neither descriptors nor field names nor method keys
repeat. -/
inductive ClassEvent.Canonical : List ClassEvent → Prop
  | intro (header : ClassHeader) (source : Option (Option String × Option String))
      (moduleInfo : Option (ModuleHead × List ModuleEvent)) (nestHost : Option String)
      (outerClass : Option OuterClass) (metadata : List MemberEvent)
      (nestMembers permittedSubtypes : List String) (innerClasses : List InnerClass)
      (components : List (ComponentHead × List MemberEvent))
      (fields : List (FieldHead × List MemberEvent))
      (methods : List (MethodHead × List MethodEvent))
      (hsource : ∀ s ∈ source, s.1.isSome ∨ s.2.isSome)
      (hmodule : ∀ m ∈ moduleInfo, ModuleEvent.Canonical m.2)
      (hmetadata : MemberEvent.Sections metadata)
      (hcomponents : ∀ d ∈ components, MemberEvent.Canonical d.2)
      (hnames : (fields.map (·.1.name)).Nodup) (hfields : ∀ f ∈ fields, MemberEvent.Canonical f.2)
      (hkeys : (methods.map (·.1.key)).Nodup) (hmethods : ∀ m ∈ methods, MethodEvent.Canonical m.2) :
    Canonical ([ClassEvent.header header] ++
      (source.map fun s => ClassEvent.source s.1 s.2).toList ++
      (moduleInfo.map fun m => ClassEvent.moduleInfo m.1 m.2).toList ++
      (nestHost.map ClassEvent.nestHost).toList ++
      (outerClass.map ClassEvent.outerClass).toList ++
      metadata.map ClassEvent.member ++
      nestMembers.map ClassEvent.nestMember ++
      permittedSubtypes.map ClassEvent.permittedSubtype ++
      innerClasses.map ClassEvent.innerClass ++
      components.map (fun d => ClassEvent.component d.1 d.2) ++
      fields.map (fun f => ClassEvent.field f.1 f.2) ++
      methods.map (fun m => ClassEvent.method m.1 m.2) ++
      [.member .finish])

namespace ClassDecl

/-- **A class built from a canonical sequence is replayed as that sequence,**
under every configuration. -/
theorem events_absorbAll_of_canonical {es : List ClassEvent} (h : ClassEvent.Canonical es)
    (c : Config) : ((blank c).absorbAll es).events = es := by
  obtain ⟨header, source, moduleInfo, nestHost, outerClass, metadata, nestMembers,
    permittedSubtypes, innerClasses, components, fields, methods, hsource, hmodule, hmetadata,
    hcomponents, hnames, hfields, hkeys, hmethods⟩ := h
  have hmeta : ((Metadata.blank c.replacePolicy).absorbAll (metadata ++ [.finish])).events =
      metadata := by
    rw [Metadata.absorbAll_append_finish, hmetadata.events_absorbAll]
  have hfieldKeys : ((fields.map fun f => (f.1.name,
      (FieldDecl.blank f.1 c.replacePolicy).absorbAll f.2)).map (·.1)).Nodup := by
    rw [List.map_map]
    exact hnames
  have hmethodKeys : ((methods.map fun m => (m.1.key,
      (MethodDecl.blank m.1 c.replacePolicy).absorbAll m.2)).map (·.1)).Nodup := by
    rw [List.map_map]
    exact hkeys
  have hmoduleEvents : moduleInfo.toList.map
      (fun m => ((ModuleDecl.blank m.1).absorbAll m.2).event) =
        moduleInfo.toList.map fun m => .moduleInfo m.1 m.2 :=
    List.map_congr_left fun m hm => (hmodule m (Option.mem_toList.mp hm)).moduleEvent m.1
  have hcomponentEvents : components.map
      (fun d => ((ComponentDecl.blank d.1 c.replacePolicy).absorbAll d.2).event) =
        components.map fun d => .component d.1 d.2 :=
    List.map_congr_left fun d hd => (hcomponents d hd).componentEvent d.1 c.replacePolicy
  have hfieldEvents : fields.map
      (fun f => ((FieldDecl.blank f.1 c.replacePolicy).absorbAll f.2).event) =
        fields.map fun f => .field f.1 f.2 :=
    List.map_congr_left fun f hf => (hfields f hf).fieldEvent f.1 c.replacePolicy
  have hmethodEvents : methods.map
      (fun m => ((MethodDecl.blank m.1 c.replacePolicy).absorbAll m.2).event) =
        methods.map fun m => .method m.1 m.2 :=
    List.map_congr_left fun m hm => (hmethods m hm).methodEvent m.1 c.replacePolicy
  have hsources : (if (source.getD (none, none)).1.isSome = true ∨
      (source.getD (none, none)).2.isSome = true then
        [ClassEvent.source (source.getD (none, none)).1 (source.getD (none, none)).2] else []) =
          source.toList.map fun s => .source s.1 s.2 := by
    cases source with
    | none => rfl
    | some s => exact if_pos (hsource s rfl)
  have hinner : InnerClass.event = ClassEvent.innerClass := rfl
  rw [absorbAll_eq]
  simp [events, sourceEvents, blank, policy, Function.comp_def, Option.toList_map,
    List.filterMap_cons, Table.insertAll_empty_of_nodup hfieldKeys,
    Table.insertAll_empty_of_nodup hmethodKeys, Table.values, hmeta, hsources, hinner,
    hmoduleEvents, hcomponentEvents, hfieldEvents, hmethodEvents]

/-- The interior of an annotation with an array that holds another one. -/
def nestedElements : List ElementEvent :=
  [.array "v" [.annot "" "LB;" [.enum "e" "LE;" "X", .finish], .value "" (.int 1), .finish], .finish]

/-- An annotated interface with one method, whose default is a text. -/
def annotationEvents : List ClassEvent :=
  [.header ⟨52, .empty, "A", none, some "B", ["C", "C"]⟩, .source none (some "d"),
    .member (.annot "LA;" true nestedElements),
    .member (.typeAnnot 7 none "LT;" false [.finish]),
    .method ⟨.empty, "m", "()I", none, []⟩
      [.parameter ⟨none, .empty⟩, .annotDefault [.value "" (.string "s"), .finish],
        .member .finish],
    .member .finish]

theorem annotationEvents_replay :
    ClassEvent.Canonical annotationEvents ∧
      ((blank { replacePolicy := .moveToEnd }).absorbAll annotationEvents).events =
        annotationEvents := by
  have hitems : ∀ e ∈ [ElementEvent.annot "" "LB;" [.enum "e" "LE;" "X", .finish],
      .value "" (.int 1)], e.Canonical := by
    simp only [List.forall_mem_cons]
    refine ⟨.annot "" "LB;" [.enum "e" "LE;" "X"] (by decide) ?_, .value _ _ trivial, by simp⟩
    simpa using .enum _ _ _
  have helements : ElementEvent.Elements nestedElements := by
    refine .intro [.array "v" ([.annot "" "LB;" [.enum "e" "LE;" "X", .finish],
      .value "" (.int 1)] ++ [.finish])] (by decide) ?_
    simpa using .array "v" _ (by decide) hitems
  have hblank : ElementEvent.Elements [.finish] := .intro [] (by decide) (by simp)
  have hmetadata : MemberEvent.Sections
      [.annot "LA;" true nestedElements, .typeAnnot 7 none "LT;" false [.finish]] :=
    .intro [⟨"LA;", true, nestedElements⟩] [] [⟨7, none, "LT;", [.finish]⟩] [] (by simp)
      (by simpa using helements) (by simp) (by simpa using hblank)
  have hdefault : ElementEvent.Items [.value "" (.string "s"), .finish] := by
    refine .intro [.value "" (.string "s")] (by decide) ?_
    simpa using .value "" (.string "s") trivial
  have hmethod : MethodEvent.Canonical [.parameter ⟨none, .empty⟩,
      .annotDefault [.value "" (.string "s"), .finish], .member .finish] :=
    .intro [⟨none, .empty⟩] (some [.value "" (.string "s"), .finish]) [] none
      (by simpa using hdefault) (.intro [] [] [] [] (by simp) (by simp) (by simp) (by simp))
  have hsample : ClassEvent.Canonical annotationEvents :=
    .intro _ (some (none, some "d")) none none none _ [] [] [] [] []
      [(⟨.empty, "m", "()I", none, []⟩, _)] (by simp) (by simp) hmetadata (by simp) (by simp)
      (by simp) (by simp) (by simpa using hmethod)
  exact ⟨hsample, events_absorbAll_of_canonical hsample _⟩

end ClassDecl

/-! ### Replays are canonical -/

namespace ElementValue

theorem name_event (n : String) (v : ElementValue) : (v.event n).name = n := by
  cases v <;> simp [event, ElementEvent.name]

theorem entryEvents_eq : ∀ es : List (String × ElementValue),
    entryEvents es = es.map (fun e => e.2.event e.1) ++ [.finish]
  | [] => by rw [entryEvents]; rfl
  | (n, v) :: es => by rw [entryEvents, entryEvents_eq es]; rfl

theorem itemEvents_eq : ∀ vs : List ElementValue,
    itemEvents vs = vs.map (event "") ++ [.finish]
  | [] => by rw [itemEvents]; rfl
  | v :: vs => by rw [itemEvents, itemEvents_eq vs]; rfl

theorem canonical_event (v : ElementValue) : v.Everywhere DistinctNames →
    ∀ n, (v.event n).Canonical := by
  induction v using ElementValue.induct with
  | annot a ih =>
    intro hv n
    obtain ⟨hnames, hinner⟩ := (everywhere_annot ..).mp hv
    obtain ⟨d, f, ⟨es, p⟩⟩ := a
    rw [event, entryEvents_eq]
    refine .annot n d _ ?_ ?_
    · rw [List.map_map, Function.comp_def]
      simp only [name_event]
      exact hnames
    · intro e he
      obtain ⟨x, hx, rfl⟩ := List.mem_map.mp he
      exact ih x hx (hinner x hx) x.1
  | array r ih =>
    intro hv n
    have hinner := ((everywhere_array ..).mp hv).2
    obtain ⟨vs, p⟩ := r
    rw [event, itemEvents_eq]
    refine .array n _ ?_ ?_
    · intro e he
      obtain ⟨x, -, rfl⟩ := List.mem_map.mp he
      exact name_event "" x
    · intro e he
      obtain ⟨x, hx, rfl⟩ := List.mem_map.mp he
      exact ih x hx (hinner x hx) ""
  | enum d c => exact fun _ n => .enum n d c
  | _ => exact fun _ n => .value n _ trivial

end ElementValue

theorem Annot.elements_events {a : Annot} (hd : a.elements.Distinct)
    (hv : a.EveryValue ElementValue.DistinctNames) : ElementEvent.Elements (Annot.events a) := by
  unfold Annot.events
  rw [ElementValue.entryEvents_eq]
  refine .intro _ ?_ ?_
  · rw [List.map_map, Function.comp_def]
    simp only [ElementValue.name_event]
    exact hd
  · intro e he
    obtain ⟨x, hx, rfl⟩ := List.mem_map.mp he
    exact x.2.canonical_event (hv x hx) x.1

theorem ValueArray.items_events {r : ValueArray} (hv : r.EveryValue ElementValue.DistinctNames) :
    ElementEvent.Items (ValueArray.events r) := by
  unfold ValueArray.events
  rw [ElementValue.itemEvents_eq]
  refine .intro _ ?_ ?_
  · intro e he
    obtain ⟨x, -, rfl⟩ := List.mem_map.mp he
    exact x.name_event ""
  · intro e he
    obtain ⟨x, hx, rfl⟩ := List.mem_map.mp he
    exact x.canonical_event (hv x hx) ""

/-- The annotation as its event gives it. -/
def Annot.call (a : Annot) : AnnotCall := ⟨a.descriptor, a.visible, Annot.events a⟩

def TypeAnnot.call (a : TypeAnnot) : TypeAnnotCall :=
  ⟨a.typeRef, a.typePath, a.annot.descriptor, Annot.events a.annot⟩

theorem Metadata.sections_events {m : Metadata} (hd : m.annots.Distinct)
    (hk : m.annots.KeyedBy (·.descriptor)) (he : m.EveryAnnot (·.elements.Distinct))
    (hv : m.EveryAnnot (Annot.EveryValue ElementValue.DistinctNames)) :
    MemberEvent.Sections m.events := by
  have hnodup : ((m.annots.values.map Annot.call).map (·.descriptor)).Nodup := by
    rw [List.map_map]
    exact hk.map_values ▸ hd
  have hannots : ∀ a ∈ m.annots.values.map Annot.call, ElementEvent.Elements a.body :=
    List.forall_mem_map.mpr fun a ha => Annot.elements_events (he.1 a ha) (hv.1 a ha)
  have htypes : ∀ visible, ∀ a ∈ (m.typeAnnots visible).toList.map TypeAnnot.call,
      ElementEvent.Elements a.body := fun visible =>
    List.forall_mem_map.mpr fun a ha =>
      Annot.elements_events (he.2 visible a ha) (hv.2 visible a ha)
  have h := MemberEvent.Sections.intro _ _ _ m.extensions.toList hnodup hannots (htypes true)
    (htypes false)
  simp only [List.map_map] at h
  exact h

theorem MethodDecl.canonical_body {m : MethodDecl} (hm : MemberEvent.Sections m.metadata.events)
    (hv : ∀ r ∈ m.annotDefault, ValueArray.EveryValue ElementValue.DistinctNames r) :
    MethodEvent.Canonical m.body := by
  have hitems : ∀ items ∈ m.annotDefault.map ValueArray.events, ElementEvent.Items items := by
    intro items hmem
    obtain ⟨r, hr, rfl⟩ := Option.map_eq_some_iff.mp hmem
    exact ValueArray.items_events (hv r hr)
  have h := MethodEvent.Canonical.intro m.parameters.toList _ m.metadata.events m.code hitems hm
  rw [Option.map_map] at h
  exact h

theorem ModuleDecl.canonical_body (m : ModuleDecl) : ModuleEvent.Canonical m.body :=
  .intro m.mainClass m.packages.toList m.requires.toList m.exports.toList m.opens.toList
    m.uses.toList m.provides.toList

/-- **The replay of a class is canonical** if no table lists a key twice and
entries stand under their own keys. -/
theorem ClassDecl.canonical_events {m : ClassDecl} (hm : m.Distinct) (hk : m.OwnKeys) :
    ClassEvent.Canonical m.events := by
  obtain ⟨hfieldKeys, hmethodKeys, hannotKeys⟩ := hk
  have hall : m.EveryMetadata (MemberEvent.Sections ·.events) := fun n hn =>
    Metadata.sections_events (hm.annots n hn) (hannotKeys n hn) (hm.elements n hn) (hm.values.1 n hn)
  obtain ⟨hmeta, hcomponents, hfields, hmethods⟩ := (everyMetadata_iff _ m).mp hall
  have hsource : ∀ s ∈ m.source?, s.1.isSome ∨ s.2.isSome := by
    intro s hs
    unfold source? at hs
    split at hs
    case isTrue h =>
      obtain rfl := Option.some.inj hs
      exact (Bool.or_eq_true ..).mp h
    case isFalse => exact absurd hs (by simp)
  have hmodule : ∀ d ∈ m.moduleInfo.map (fun d => (d.toModuleHead, d.body)),
      ModuleEvent.Canonical d.2 := by
    intro d hd
    obtain ⟨n, -, rfl⟩ := Option.map_eq_some_iff.mp hd
    exact n.canonical_body
  have hnames : ((m.fields.values.map fun f => (f.toFieldHead, f.body)).map (·.1.name)).Nodup := by
    rw [List.map_map]
    exact hfieldKeys.map_values ▸ hm.fields
  have hkeys : ((m.methods.values.map fun d => (d.toMethodHead, d.body)).map (·.1.key)).Nodup := by
    rw [List.map_map]
    exact hmethodKeys.map_values ▸ hm.methods
  have h := ClassEvent.Canonical.intro m.toClassHeader m.source? _ m.nestHost m.outerClass
    m.metadata.events m.nestMembers.toList m.permittedSubtypes.toList m.innerClasses
    (m.components.toList.map fun d => (d.toComponentHead, d.body)) _ _ hsource hmodule hmeta
    (List.forall_mem_map.mpr fun d hd => .intro _ (hcomponents d hd)) hnames
    (List.forall_mem_map.mpr fun f hf => .intro _ (hfields f hf)) hkeys
    (List.forall_mem_map.mpr fun d hd => d.canonical_body (hmethods d hd) (hm.values.2 d hd))
  simp only [List.map_map, Option.map_map] at h
  unfold events
  rw [sourceEvents_eq]
  exact h

end ClassTree

/-
# A class read off its history

A class that was built from nothing is read off the events that built it,
without running them (`ClassDecl.ofHistory`). Attributes that hold one thing
have it from their last event, lists have the entries of their events in order,
and the keyed tables have one entry for each key, from the last event with that
key, in the order of the policy. Every entry is built from the interior of its
own event alone, so it is the entry that this event builds in a blank class, and
its interior is read off in the same way: metadata, methods and modules from their
events (`Metadata.ofHistory`, `MethodDecl.ofHistory`, `ModuleDecl.ofHistory`), the
elements of annotations at every depth (`ElementEvent.read?`).

Events of different kinds never meet: a history may be shuffled as long as the
events of each kind keep their order (`ClassDecl.ofHistory_congr`).

Key definitions: `ElementEvent.read?`, `Annot.ofHistory`, `Metadata.ofHistory`,
`MethodDecl.ofHistory`, `ModuleDecl.ofHistory`, `ClassDecl.ofHistory`,
`ClassEvent.kind`.
-/
import ClassTree.Proofs.Absorption
import ClassTree.Proofs.Placement

namespace ClassTree

/-- The attribute that a history of additions leaves: absent without any. -/
def AttrList.ofHistory {α : Type u} (xs : List α) : AttrList α := AttrList.absent.extend xs

theorem AttrList.pushAll_absent {α : Type u} (xs : List α) :
    AttrList.absent.pushAll xs = AttrList.ofHistory xs :=
  AttrList.pushAll_eq_extend ..

/-! ### Elements

An interior is read off its own events at every depth. -/

namespace ElementEvent

mutual

/-- The element that an event names, in a place of a policy. -/
def read? (p : ReplacePolicy) : ElementEvent → Option (String × ElementValue)
  | .value name v => some (name, v)
  | .enum name d c => some (name, .enum d c)
  | .annot name d body => some (name, .annot ⟨d, false, .ofHistory p (readAll p body)⟩)
  | .array name body => some (name, .array ⟨(readAll p body).map (·.2), p⟩)
  | .finish => none

/-- The elements that events name, in order. -/
def readAll (p : ReplacePolicy) : List ElementEvent → List (String × ElementValue)
  | [] => []
  | e :: es => (read? p e).toList ++ readAll p es

end

end ElementEvent

/-- The annotation that a history of events leaves. -/
def Annot.ofHistory (p : ReplacePolicy) (d : String) (visible : Bool) (es : List ElementEvent) :
    Annot := ⟨d, visible, .ofHistory p (ElementEvent.readAll p es)⟩

/-- The array that a history of events leaves; names do not matter. -/
def ValueArray.ofHistory (p : ReplacePolicy) (es : List ElementEvent) : ValueArray :=
  ⟨(ElementEvent.readAll p es).map (·.2), p⟩

theorem Annot.absorbAll_blank_of {p : ReplacePolicy} {es : List ElementEvent}
    (h : es.filterMap (ElementEvent.element? p) = ElementEvent.readAll p es) (d : String)
    (visible : Bool) :
    Annot.absorbAll (Annot.blank d visible p) es = Annot.ofHistory p d visible es := by
  rw [Annot.absorbAll_eq]
  simp only [Annot.blank, Table.policy_empty, Table.insertAll_empty, h]
  rfl

theorem ValueArray.absorbAll_blank_of {p : ReplacePolicy} {es : List ElementEvent}
    (h : es.filterMap (ElementEvent.element? p) = ElementEvent.readAll p es) :
    ValueArray.absorbAll (ValueArray.blank p) es = ValueArray.ofHistory p es := by
  rw [ValueArray.absorbAll_eq]
  simp only [ValueArray.blank, List.nil_append, h]
  rfl

namespace ElementEvent

mutual

theorem element?_eq_read? (p : ReplacePolicy) : ∀ e : ElementEvent, e.element? p = e.read? p
  | .annot name d body => by
    rw [element?, read?, Annot.absorbAll_blank_of (filterMap_element? p body)]
    rfl
  | .array name body => by
    rw [element?, read?, ValueArray.absorbAll_blank_of (filterMap_element? p body)]
    rfl
  | .value _ _ => by rw [element?, read?]
  | .enum _ _ _ => by rw [element?, read?]
  | .finish => by rw [element?, read?]

theorem filterMap_element? (p : ReplacePolicy) : ∀ es : List ElementEvent,
    es.filterMap (element? p) = readAll p es
  | [] => by rw [readAll]; rfl
  | e :: es => by
    rw [readAll, ← element?_eq_read? p e, ← filterMap_element? p es]
    cases h : e.element? p <;> simp [h]

end

end ElementEvent

/-- An annotation built from nothing is read off its events. -/
theorem Annot.absorbAll_blank (p : ReplacePolicy) (d : String) (visible : Bool)
    (es : List ElementEvent) :
    Annot.absorbAll (Annot.blank d visible p) es = Annot.ofHistory p d visible es :=
  Annot.absorbAll_blank_of (ElementEvent.filterMap_element? p es) d visible

/-- An array built from nothing is read off its events. -/
theorem ValueArray.absorbAll_blank (p : ReplacePolicy) (es : List ElementEvent) :
    ValueArray.absorbAll (ValueArray.blank p) es = ValueArray.ofHistory p es :=
  ValueArray.absorbAll_blank_of (ElementEvent.filterMap_element? p es)

/-! ### Metadata -/

namespace MemberEvent

/-- The annotation that an event adds, under its key. -/
@[simp] def readAnnot? (p : ReplacePolicy) : MemberEvent → Option (String × Annot)
  | .annot d visible body => some (d, Annot.ofHistory p d visible body)
  | _ => none

/-- The type annotation that an event adds to the list of a flag. -/
@[simp] def readTypeAnnot? (p : ReplacePolicy) (flag : Bool) : MemberEvent → Option TypeAnnot
  | .typeAnnot ref path d visible body =>
    if visible = flag then some ⟨ref, path, Annot.ofHistory p d visible body⟩ else none
  | _ => none

theorem annot?_eq_readAnnot? (p : ReplacePolicy) : annot? p = readAnnot? p := by
  funext e
  cases e <;> simp [Annot.absorbAll_blank]

theorem typeAnnot?_eq_readTypeAnnot? (p : ReplacePolicy) (flag : Bool) :
    typeAnnot? p flag = readTypeAnnot? p flag := by
  funext e
  cases e <;> simp [Annot.absorbAll_blank]

end MemberEvent

/-- The metadata that a history of events leaves. -/
def Metadata.ofHistory (p : ReplacePolicy) (es : List MemberEvent) : Metadata where
  annots := .ofHistory p (es.filterMap (MemberEvent.readAnnot? p))
  visibleTypeAnnots := .ofHistory (es.filterMap (MemberEvent.readTypeAnnot? p true))
  invisibleTypeAnnots := .ofHistory (es.filterMap (MemberEvent.readTypeAnnot? p false))
  extensions := .ofHistory (es.filterMap MemberEvent.extension?)

theorem Metadata.absorbAll_blank (p : ReplacePolicy) (es : List MemberEvent) :
    (Metadata.blank p).absorbAll es = Metadata.ofHistory p es := by
  rw [absorbAll_eq]
  simp only [blank, policy, Table.policy_empty, Table.insertAll_empty, AttrList.pushAll_absent,
    MemberEvent.annot?_eq_readAnnot?, MemberEvent.typeAnnot?_eq_readTypeAnnot?]
  rfl

/-! ### Members and modules -/

/-- The component that a history of events leaves. -/
def ComponentDecl.ofHistory (p : ReplacePolicy) (head : ComponentHead) (es : List MemberEvent) :
    ComponentDecl := ⟨head, .ofHistory p es⟩

/-- The field that a history of events leaves. -/
def FieldDecl.ofHistory (p : ReplacePolicy) (head : FieldHead) (es : List MemberEvent) :
    FieldDecl := ⟨head, .ofHistory p es⟩

/-- The default value that an event builds. -/
@[simp] def MethodEvent.readDefault? (p : ReplacePolicy) : MethodEvent → Option ValueArray
  | .annotDefault body => some (ValueArray.ofHistory p body)
  | _ => none

/-- The method that a history of events leaves. -/
def MethodDecl.ofHistory (p : ReplacePolicy) (head : MethodHead) (es : List MethodEvent) :
    MethodDecl where
  toMethodHead := head
  parameters := .ofHistory (es.filterMap MethodEvent.parameter?)
  annotDefault := (es.filterMap (MethodEvent.readDefault? p)).getLast?
  metadata := .ofHistory p (es.filterMap MethodEvent.member?)
  code := (es.filterMap MethodEvent.code?).getLast?

/-- The module that a history of events leaves. -/
def ModuleDecl.ofHistory (head : ModuleHead) (es : List ModuleEvent) : ModuleDecl where
  toModuleHead := head
  mainClass := (es.filterMap ModuleEvent.mainClass?).getLast?
  packages := .ofHistory (es.filterMap ModuleEvent.package?)
  requires := .ofHistory (es.filterMap ModuleEvent.requires?)
  exports := .ofHistory (es.filterMap ModuleEvent.exports?)
  opens := .ofHistory (es.filterMap ModuleEvent.opens?)
  uses := .ofHistory (es.filterMap ModuleEvent.uses?)
  provides := .ofHistory (es.filterMap ModuleEvent.provides?)

theorem ComponentDecl.absorbAll_blank (p : ReplacePolicy) (head : ComponentHead)
    (es : List MemberEvent) :
    (ComponentDecl.blank head p).absorbAll es = ComponentDecl.ofHistory p head es := by
  rw [absorbAll_eq, blank, Metadata.absorbAll_blank]
  rfl

theorem FieldDecl.absorbAll_blank (p : ReplacePolicy) (head : FieldHead) (es : List MemberEvent) :
    (FieldDecl.blank head p).absorbAll es = FieldDecl.ofHistory p head es := by
  rw [absorbAll_eq, blank, Metadata.absorbAll_blank]
  rfl

theorem MethodEvent.annotDefault?_eq_readDefault? (p : ReplacePolicy) :
    annotDefault? p = readDefault? p := by
  funext e
  cases e <;> simp [ValueArray.absorbAll_blank]

theorem MethodDecl.absorbAll_blank (p : ReplacePolicy) (head : MethodHead)
    (es : List MethodEvent) :
    (MethodDecl.blank head p).absorbAll es = MethodDecl.ofHistory p head es := by
  rw [absorbAll_eq]
  simp only [blank, Metadata.policy_blank, AttrList.pushAll_absent, Option.or_none,
    Metadata.absorbAll_blank, MethodEvent.annotDefault?_eq_readDefault?]
  rfl

theorem ModuleDecl.absorbAll_blank (head : ModuleHead) (es : List ModuleEvent) :
    (ModuleDecl.blank head).absorbAll es = ModuleDecl.ofHistory head es := by
  rw [absorbAll_eq]
  simp only [blank, AttrList.pushAll_absent, Option.or_none]
  rfl

/-! ### Kinds of events -/

namespace ClassEvent

/-- What an event is about. -/
inductive Kind
  | header
  | source
  | moduleInfo
  | nestHost
  | outerClass
  | annot
  | typeAnnot (visible : Bool)
  | extension
  | finish
  | nestMember
  | permittedSubtype
  | innerClass
  | component
  | field
  | method
  deriving DecidableEq, Repr

def kind : ClassEvent → Kind
  | .header _ => .header
  | .source _ _ => .source
  | .moduleInfo _ _ => .moduleInfo
  | .nestHost _ => .nestHost
  | .outerClass _ => .outerClass
  | .member (.annot _ _ _) => .annot
  | .member (.typeAnnot _ _ _ visible _) => .typeAnnot visible
  | .member (.extension _) => .extension
  | .member .finish => .finish
  | .nestMember _ => .nestMember
  | .permittedSubtype _ => .permittedSubtype
  | .innerClass _ => .innerClass
  | .component _ _ => .component
  | .field _ _ => .field
  | .method _ _ => .method

/-- What only events of one kind contribute is read off the events of that kind. -/
theorem filterMap_filter_kind {α : Type u} {f : ClassEvent → Option α} {k : Kind}
    (hf : ∀ e x, f e = some x → e.kind = k) (es : List ClassEvent) :
    (es.filter (·.kind = k)).filterMap f = es.filterMap f := by
  rw [List.filterMap_filter]
  refine List.filterMap_congr fun e _ => ?_
  cases h : f e with
  | none => rw [ite_self]
  | some x => rw [if_pos (decide_eq_true (hf e x h))]

/-- What an event stores its entry under, in one of the keyed tables of the
class itself. -/
inductive Key
  | annot (descriptor : String)
  | field (name : String)
  | method (key : MethodKey)
  deriving DecidableEq, Repr

/-- The key of an event; that of an annotation is its descriptor, whatever its
flag. -/
def key? : ClassEvent → Option Key
  | .member (.annot d _ _) => some (.annot d)
  | .field head _ => some (.field head.name)
  | .method head _ => some (.method head.key)
  | _ => none

end ClassEvent

/-! ### Classes -/

namespace ClassEvent

/-- The module that an event builds. -/
@[simp] def readModule? : ClassEvent → Option ModuleDecl
  | .moduleInfo head body => some (.ofHistory head body)
  | _ => none

/-- The component that an event builds. -/
@[simp] def readComponent? (p : ReplacePolicy) : ClassEvent → Option ComponentDecl
  | .component head body => some (.ofHistory p head body)
  | _ => none

/-- The field that an event builds, under its key. -/
@[simp] def readField? (p : ReplacePolicy) : ClassEvent → Option (String × FieldDecl)
  | .field head body => some (head.name, .ofHistory p head body)
  | _ => none

/-- The method that an event builds, under its key. -/
@[simp] def readMethod? (p : ReplacePolicy) : ClassEvent → Option (MethodKey × MethodDecl)
  | .method head body => some (head.key, .ofHistory p head body)
  | _ => none

theorem moduleInfo?_eq_readModule? : moduleInfo? = readModule? := by
  funext e
  cases e <;> simp [ModuleDecl.absorbAll_blank]

theorem component?_eq_readComponent? (p : ReplacePolicy) : component? p = readComponent? p := by
  funext e
  cases e <;> simp [ComponentDecl.absorbAll_blank]

theorem field?_eq_readField? (p : ReplacePolicy) : field? p = readField? p := by
  funext e
  cases e <;> simp [FieldDecl.absorbAll_blank]

theorem method?_eq_readMethod? (p : ReplacePolicy) : method? p = readMethod? p := by
  funext e
  cases e <;> simp [MethodDecl.absorbAll_blank]

end ClassEvent

namespace ClassDecl

/-- The class that a history of events leaves when it starts from nothing. -/
def ofHistory (c : Config) (es : List ClassEvent) : ClassDecl where
  toClassHeader := (es.filterMap ClassEvent.header?).getLast?.getD (blank c).toClassHeader
  sourceFile := (es.filterMap ClassEvent.source?).getLast?.bind (·.1)
  sourceDebug := (es.filterMap ClassEvent.source?).getLast?.bind (·.2)
  moduleInfo := (es.filterMap ClassEvent.readModule?).getLast?
  outerClass := (es.filterMap ClassEvent.outerClass?).getLast?
  nestHost := (es.filterMap ClassEvent.nestHost?).getLast?
  metadata := .ofHistory c.replacePolicy (es.filterMap ClassEvent.member?)
  nestMembers := .ofHistory (es.filterMap ClassEvent.nestMember?)
  permittedSubtypes := .ofHistory (es.filterMap ClassEvent.permittedSubtype?)
  innerClasses := es.filterMap ClassEvent.innerClass?
  components := .ofHistory (es.filterMap (ClassEvent.readComponent? c.replacePolicy))
  fields := .ofHistory c.replacePolicy (es.filterMap (ClassEvent.readField? c.replacePolicy))
  methods := .ofHistory c.replacePolicy (es.filterMap (ClassEvent.readMethod? c.replacePolicy))
  config := c

theorem absorbAll_blank (c : Config) (es : List ClassEvent) :
    (blank c).absorbAll es = ofHistory c es := by
  have hsource : ∀ s : Option (Option String × Option String),
      (s.getD (none, none)).1 = s.bind (·.1) ∧ (s.getD (none, none)).2 = s.bind (·.2) := by
    intro s
    cases s <;> exact ⟨rfl, rfl⟩
  rw [absorbAll_eq]
  simp only [blank, policy, Option.or_none, List.nil_append, Table.insertAll_empty,
    AttrList.pushAll_absent, Metadata.absorbAll_blank, hsource,
    ClassEvent.moduleInfo?_eq_readModule?, ClassEvent.component?_eq_readComponent?,
    ClassEvent.field?_eq_readField?, ClassEvent.method?_eq_readMethod?]
  rfl

/-- Histories with the same events of each kind leave the same class. -/
theorem ofHistory_congr {es es' : List ClassEvent}
    (h : ∀ k, es'.filter (·.kind = k) = es.filter (·.kind = k)) (c : Config) :
    ofHistory c es' = ofHistory c es := by
  -- every attribute is read off the events of one kind, those of the metadata in two steps
  have hread : ∀ {α : Type} (k : ClassEvent.Kind) (f : ClassEvent → Option α),
      (∀ e x, f e = some x → e.kind = k) → es'.filterMap f = es.filterMap f := by
    intro α k f hf
    rw [← ClassEvent.filterMap_filter_kind hf es', h k, ClassEvent.filterMap_filter_kind hf es]
  have hmember : ∀ {α : Type} (k : ClassEvent.Kind) (f : MemberEvent → Option α),
      (∀ e x, f e = some x → (ClassEvent.member e).kind = k) →
        (es'.filterMap ClassEvent.member?).filterMap f =
          (es.filterMap ClassEvent.member?).filterMap f := by
    intro α k f hf
    rw [List.filterMap_filterMap, List.filterMap_filterMap]
    refine hread k _ fun e x hx => ?_
    cases e with
    | member e => exact hf e x hx
    | _ => cases hx
  have htypes : ∀ flag, (es'.filterMap ClassEvent.member?).filterMap
      (MemberEvent.readTypeAnnot? c.replacePolicy flag) =
        (es.filterMap ClassEvent.member?).filterMap
          (MemberEvent.readTypeAnnot? c.replacePolicy flag) := by
    intro flag
    refine hmember (.typeAnnot flag) _ fun e x hx => ?_
    cases e with
    | typeAnnot ref path d visible body =>
      have hflag : visible = flag := by
        by_contra hne
        simp [hne] at hx
      rw [hflag]
      rfl
    | _ => cases hx
  have hmeta : Metadata.ofHistory c.replacePolicy (es'.filterMap ClassEvent.member?) =
      Metadata.ofHistory c.replacePolicy (es.filterMap ClassEvent.member?) := by
    unfold Metadata.ofHistory
    rw [htypes true, htypes false,
      hmember .annot (MemberEvent.readAnnot? _) fun e x hx => by cases e <;> cases hx; rfl,
      hmember .extension MemberEvent.extension? fun e x hx => by cases e <;> cases hx; rfl]
  unfold ofHistory
  rw [hmeta, hread .header ClassEvent.header? fun e x hx => by cases e <;> cases hx; rfl,
    hread .source ClassEvent.source? fun e x hx => by cases e <;> cases hx; rfl,
    hread .moduleInfo ClassEvent.readModule? fun e x hx => by cases e <;> cases hx; rfl,
    hread .outerClass ClassEvent.outerClass? fun e x hx => by cases e <;> cases hx; rfl,
    hread .nestHost ClassEvent.nestHost? fun e x hx => by cases e <;> cases hx; rfl,
    hread .nestMember ClassEvent.nestMember? fun e x hx => by cases e <;> cases hx; rfl,
    hread .permittedSubtype ClassEvent.permittedSubtype? fun e x hx => by cases e <;> cases hx; rfl,
    hread .innerClass ClassEvent.innerClass? fun e x hx => by cases e <;> cases hx; rfl,
    hread .component (ClassEvent.readComponent? _) fun e x hx => by cases e <;> cases hx; rfl,
    hread .field (ClassEvent.readField? _) fun e x hx => by cases e <;> cases hx; rfl,
    hread .method (ClassEvent.readMethod? _) fun e x hx => by cases e <;> cases hx; rfl]

/-! ### One entry

What stands under a key is what the last event with that key builds in a blank
class. -/

theorem get?_fields_ofHistory (c : Config) (es : List ClassEvent) (name : String) :
    (ofHistory c es).fields.get? name =
      ((es.filter (·.key? = some (.field name))).getLast?).bind
        fun e => ((blank c).absorb e).fields.get? name := by
  refine Table.get?_ofHistory_filterMap (fun e => ?_) (fun e hn => ?_) _ es
  · cases e with
    | field head body => simp [ClassEvent.key?]
    | member e => cases e <;> simp [ClassEvent.key?]
    | _ => simp [ClassEvent.key?]
  · cases e with
    | field head body =>
      obtain rfl : head.name = name := by simpa using hn
      rw [absorb_field, Table.get?_insert, if_pos rfl, FieldDecl.absorbAll_blank]
      rfl
    | _ => cases hn

theorem get?_methods_ofHistory (c : Config) (es : List ClassEvent) (key : MethodKey) :
    (ofHistory c es).methods.get? key =
      ((es.filter (·.key? = some (.method key))).getLast?).bind
        fun e => ((blank c).absorb e).methods.get? key := by
  refine Table.get?_ofHistory_filterMap (fun e => ?_) (fun e hk => ?_) _ es
  · cases e with
    | method head body => simp [ClassEvent.key?]
    | member e => cases e <;> simp [ClassEvent.key?]
    | _ => simp [ClassEvent.key?]
  · cases e with
    | method head body =>
      obtain rfl : head.key = key := by simpa using hk
      rw [absorb_method, Table.get?_insert, if_pos rfl, MethodDecl.absorbAll_blank]
      rfl
    | _ => cases hk

theorem get?_annots_ofHistory (c : Config) (es : List ClassEvent) (d : String) :
    (ofHistory c es).metadata.annots.get? d =
      ((es.filter (·.key? = some (.annot d))).getLast?).bind
        fun e => ((blank c).absorb e).metadata.annots.get? d := by
  have hentries : (ofHistory c es).metadata.annots = .ofHistory c.replacePolicy
      (es.filterMap fun e => e.member?.bind (MemberEvent.readAnnot? c.replacePolicy)) := by
    rw [← List.filterMap_filterMap]
    rfl
  rw [hentries]
  refine Table.get?_ofHistory_filterMap (fun e => ?_) (fun e hd => ?_) _ es
  · cases e with
    | member e => cases e <;> simp [ClassEvent.key?]
    | _ => simp [ClassEvent.key?]
  · cases e with
    | member e =>
      cases e with
      | annot d' visible body =>
        obtain rfl : d' = d := by simpa using hd
        have habsorb : ((blank c).absorb (.member (.annot d' visible body))).metadata =
            (blank c).metadata.absorb (.annot d' visible body) := rfl
        rw [habsorb, Metadata.absorb_annot, Table.get?_insert, if_pos rfl, Annot.absorbAll_blank]
        rfl
      | _ => cases hd
    | _ => cases hd

/-- **A class built from nothing is what its history says.** It is read off the
events: the last one of each optional attribute, the list entries in order, and
for each key of a table the entry of the last event with that key, in the order
of the policy. Each such entry is what its event builds in a blank class, and
histories that list the same events of each kind build the same class. -/
theorem built_from_history (c : Config) (es : List ClassEvent) :
    (blank c).absorbAll es = ofHistory c es ∧
    (∀ name, ((blank c).absorbAll es).fields.get? name =
      ((es.filter (·.key? = some (.field name))).getLast?).bind
        fun e => ((blank c).absorb e).fields.get? name) ∧
    (∀ key, ((blank c).absorbAll es).methods.get? key =
      ((es.filter (·.key? = some (.method key))).getLast?).bind
        fun e => ((blank c).absorb e).methods.get? key) ∧
    (∀ d, ((blank c).absorbAll es).metadata.annots.get? d =
      ((es.filter (·.key? = some (.annot d))).getLast?).bind
        fun e => ((blank c).absorb e).metadata.annots.get? d) ∧
    ∀ es' : List ClassEvent, (∀ k, es'.filter (·.kind = k) = es.filter (·.kind = k)) →
      (blank c).absorbAll es' = (blank c).absorbAll es := by
  refine ⟨absorbAll_blank c es, ?_⟩
  simp only [absorbAll_blank]
  exact ⟨get?_fields_ofHistory c es, get?_methods_ofHistory c es, get?_annots_ofHistory c es,
    fun es' h => ofHistory_congr h c⟩

/-- Declarations of two fields, one of them declared twice. -/
def redeclared : List ClassEvent :=
  [.field ⟨.empty, "x", "I", none, none⟩ [.annot "LA;" true [], .finish],
    .field ⟨.empty, "y", "J", none, none⟩ [],
    .field ⟨.empty, "x", "F", none, none⟩ [.finish]]

def headerA : ClassEvent := .header ⟨61, .empty, "A", none, none, []⟩

/-- The header may come before the fields or after them. The field that is declared
twice stands first, as it was declared last, without the annotation. -/
theorem redeclared_built_from_history :
    (∀ k, (headerA :: redeclared).filter (·.kind = k) =
      (redeclared ++ [headerA]).filter (·.kind = k)) ∧
    (blank {}).absorbAll (headerA :: redeclared) = ofHistory {} (redeclared ++ [headerA]) ∧
    ((blank {}).absorbAll (headerA :: redeclared)).fields.entries =
      [("x", .blank ⟨.empty, "x", "F", none, none⟩ .inPlace),
        ("y", .blank ⟨.empty, "y", "J", none, none⟩ .inPlace)] := by
  have hkinds : ∀ k, (headerA :: redeclared).filter (·.kind = k) =
      (redeclared ++ [headerA]).filter (·.kind = k) := by
    intro k
    cases k <;> rfl
  have hbuilt := built_from_history {} (redeclared ++ [headerA])
  have hstate : (blank {}).absorbAll (headerA :: redeclared) =
      ofHistory {} (redeclared ++ [headerA]) := (hbuilt.2.2.2.2 _ hkinds).trans hbuilt.1
  refine ⟨hkinds, hstate, ?_⟩
  rw [hstate]
  rfl

end ClassDecl

end ClassTree

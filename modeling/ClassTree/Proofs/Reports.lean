/-
# What a replay reports

Every event reports in the state that the earlier ones left. If no key is
opened twice, the earlier events have changed nothing that a later one asks for,
so the whole run reports as if each event came first (`reportAll_eq_flatMap`).
This holds at every level: for the elements of an annotation, for metadata, for
a method and for a class.

At each level a notice is either about the entry that an event replaces, or it
comes from the inside of the event. A replay opens no key twice when its entries
name different keys, and everything inside is built from nothing, so the inside
is silent (`Metadata.noticesAll_blank_events`, `MethodDecl.noticesAll_blank_body`).
What is left are the entries of the receiver itself that are replaced, and the
openings that it declined (`ClassDecl.noticesThrough_pruning_events`).

Key definitions: `ElementEvent.inside`, `Metadata.Apart`, `ClassDecl.replacing`,
`ClassDecl.OwnKeysApart`, `Opening.pruned?`.
-/
import ClassTree.Gate
import ClassTree.Proofs.Copies
import ClassTree.Proofs.Everywhere
import ClassTree.Proofs.History

namespace ClassTree

/-! ### Runs -/

/-- **A run in which no key occurs twice reports as if each event came first,**
provided that an event touches the report of another only through its key. -/
theorem reportAll_eq_flatMap {σ : Type u} {ε : Type v} {κ : Type w} {absorb : σ → ε → σ}
    {report : σ → ε → List Notice} {key? : ε → Option κ} {es : List ε}
    (hkeys : (es.filterMap key?).Nodup)
    (hframe : ∀ e ∈ es, ∀ e' ∈ es, (∀ k, key? e = some k → key? e' ≠ some k) →
      ∀ s, report (absorb s e) e' = report s e') :
    ∀ s, reportAll absorb report s es = es.flatMap (report s) := by
  induction es with
  | nil => exact fun _ => rfl
  | cons e es ih =>
    intro s
    have htail : (es.filterMap key?).Nodup :=
      hkeys.sublist ((List.sublist_cons_self e es).filterMap key?)
    have hapart : ∀ e' ∈ es, ∀ k, key? e = some k → key? e' ≠ some k := by
      intro e' he' k hk hk'
      rw [List.filterMap_cons_some hk] at hkeys
      exact (List.nodup_cons.mp hkeys).1 (List.mem_filterMap.mpr ⟨e', he', hk'⟩)
    have hrest := ih htail
      (fun x hx y hy => hframe x (List.mem_cons_of_mem e hx) y (List.mem_cons_of_mem e hy))
      (absorb s e)
    -- no later event has the key of the first one, so they all report as before it
    rw [reportAll, hrest, List.flatMap_cons]
    congr 1
    refine List.flatMap_congr fun e' he' => ?_
    exact hframe e List.mem_cons_self e' (List.mem_cons_of_mem e he') (hapart e' he') s

/-! ### Elements -/

namespace ElementEvent

/-- The name that an event sets; `finish` sets none. -/
def name? : ElementEvent → Option String
  | .value name _ => some name
  | .enum name _ _ => some name
  | .annot name _ _ => some name
  | .array name _ => some name
  | .finish => none

/-- What the interior of an event reports in a place of a policy. -/
def inside (p : ReplacePolicy) : ElementEvent → List Notice
  | .annot _ d body => Annot.noticesAll (Annot.blank d false p) body
  | .array _ body => ValueArray.noticesAll (ValueArray.blank p) body
  | _ => []

theorem element?_map_name (p : ReplacePolicy) (e : ElementEvent) :
    (e.element? p).map (·.1) = e.name? := by
  cases e <;> rfl

end ElementEvent

theorem Annot.notices_eq (a : Annot) (e : ElementEvent) :
    Annot.notices a e = e.name?.toList.flatMap a.replacing ++ e.inside a.elements.policy := by
  cases e <;> simp [Annot.notices, ElementEvent.name?, ElementEvent.inside]

theorem ValueArray.notices_eq (r : ValueArray) (e : ElementEvent) :
    ValueArray.notices r e = e.inside r.policy := by
  cases e <;> simp [ValueArray.notices, ElementEvent.inside]

theorem Annot.noticesAll_eq_reportAll (es : List ElementEvent) : ∀ a : Annot,
    Annot.noticesAll a es = reportAll Annot.absorb Annot.notices a es := by
  induction es with
  | nil => intro a; rw [Annot.noticesAll]; rfl
  | cons e es ih => intro a; rw [Annot.noticesAll, ih]; rfl

theorem ValueArray.noticesAll_eq_reportAll (es : List ElementEvent) : ∀ r : ValueArray,
    ValueArray.noticesAll r es = reportAll ValueArray.absorb ValueArray.notices r es := by
  induction es with
  | nil => intro r; rw [ValueArray.noticesAll]; rfl
  | cons e es ih => intro r; rw [ValueArray.noticesAll, ih]; rfl

theorem Annot.notices_absorb {e e' : ElementEvent}
    (h : ∀ n, e.name? = some n → e'.name? ≠ some n) (a : Annot) :
    Annot.notices (a.absorb e) e' = Annot.notices a e' := by
  have hreplacing : ∀ n, e'.name? = some n → (a.absorb e).replacing n = a.replacing n := by
    intro n hn
    rw [Annot.absorb_eq]
    unfold Annot.replacing Table.contains
    cases he : e.element? a.elements.policy with
    | none => rfl
    | some x =>
      have hname : e.name? = some x.1 := by
        rw [← e.element?_map_name a.elements.policy, he]
        rfl
      have hne : x.1 ≠ n := fun hx => h x.1 hname (hx ▸ hn)
      simp [Table.get?_insert, hne]
  rw [Annot.notices_eq, Annot.notices_eq]
  congr 1
  · refine List.flatMap_congr fun n hn => ?_
    exact hreplacing n (Option.mem_toList.mp hn)
  · rw [Annot.absorb_eq, Table.policy_insertAll]

/-- New, different names: only the interiors report. -/
theorem Annot.noticesAll_of_fresh {a : Annot} {es : List ElementEvent}
    (hnames : (es.filterMap ElementEvent.name?).Nodup)
    (hfresh : ∀ n ∈ es.filterMap ElementEvent.name?, n ∉ a.elements.keys) :
    Annot.noticesAll a es = es.flatMap (ElementEvent.inside a.elements.policy) := by
  rw [Annot.noticesAll_eq_reportAll,
    reportAll_eq_flatMap hnames fun e _ e' _ h s => Annot.notices_absorb h s]
  refine List.flatMap_congr fun e he => ?_
  rw [Annot.notices_eq]
  cases hn : e.name? with
  | none => rfl
  | some n =>
    have hnew : a.elements.contains n = false :=
      Table.contains_eq_false_iff.mpr (hfresh n (List.mem_filterMap.mpr ⟨e, he, hn⟩))
    simp [Annot.replacing, hnew]

theorem ValueArray.noticesAll_eq (r : ValueArray) (es : List ElementEvent) :
    ValueArray.noticesAll r es = es.flatMap (ElementEvent.inside r.policy) := by
  have hnone : (es.filterMap fun _ => (none : Option Unit)).Nodup := by simp
  rw [ValueArray.noticesAll_eq_reportAll, reportAll_eq_flatMap hnone]
  · exact List.flatMap_congr fun e _ => r.notices_eq e
  · intro e _ e' _ _ s
    rw [ValueArray.notices_eq, ValueArray.notices_eq, ValueArray.absorb_eq]

namespace ElementValue

theorem name?_event (name : String) (v : ElementValue) : (v.event name).name? = some name := by
  cases v <;> simp [event, ElementEvent.name?]

theorem filterMap_name?_entryEvents : ∀ es : List (String × ElementValue),
    (entryEvents es).filterMap ElementEvent.name? = es.map (·.1)
  | [] => by simp [entryEvents, ElementEvent.name?]
  | (name, v) :: es => by
    rw [entryEvents, List.filterMap_cons_some (name?_event name v), filterMap_name?_entryEvents es]
    rfl

theorem flatMap_inside_entryEvents {p : ReplacePolicy} : ∀ {es : List (String × ElementValue)},
    (∀ e ∈ es, ∀ name, (e.2.event name).inside p = []) →
      (entryEvents es).flatMap (ElementEvent.inside p) = []
  | [], _ => by simp [entryEvents, ElementEvent.inside]
  | (name, v) :: es, h => by
    rw [entryEvents, List.flatMap_cons, h (name, v) List.mem_cons_self,
      flatMap_inside_entryEvents fun e he => h e (List.mem_cons_of_mem _ he)]
    rfl

theorem flatMap_inside_itemEvents {p : ReplacePolicy} : ∀ {vs : List ElementValue},
    (∀ v ∈ vs, ∀ name, (v.event name).inside p = []) →
      (itemEvents vs).flatMap (ElementEvent.inside p) = []
  | [], _ => by simp [itemEvents, ElementEvent.inside]
  | v :: vs, h => by
    rw [itemEvents, List.flatMap_cons, h v List.mem_cons_self,
      flatMap_inside_itemEvents fun w hw => h w (List.mem_cons_of_mem _ hw)]
    rfl

/-- Elements that are silent inside and have different names are listed in
silence. -/
theorem noticesAll_entryEvents {p : ReplacePolicy} {es : List (String × ElementValue)}
    (hnames : (es.map (·.1)).Nodup) (hin : ∀ e ∈ es, ∀ name, (e.2.event name).inside p = [])
    (d : String) (visible : Bool) :
    Annot.noticesAll (Annot.blank d visible p) (entryEvents es) = [] := by
  rw [Annot.noticesAll_of_fresh]
  · exact flatMap_inside_entryEvents hin
  · rw [filterMap_name?_entryEvents]
    exact hnames
  · exact fun n _ => List.not_mem_nil

/-- A value whose tables name no element twice is replayed in silence. -/
theorem inside_event (p : ReplacePolicy) (v : ElementValue) :
    v.Everywhere DistinctNames → ∀ name, (v.event name).inside p = [] := by
  induction v using ElementValue.induct with
  | annot a ih =>
    intro hv name
    obtain ⟨hnames, hinner⟩ := (everywhere_annot ..).mp hv
    obtain ⟨d, f, ⟨es, q⟩⟩ := a
    rw [event, ElementEvent.inside]
    exact noticesAll_entryEvents hnames (fun e he => ih e he (hinner e he)) d false
  | array r ih =>
    intro hv name
    have hinner := ((everywhere_array ..).mp hv).2
    obtain ⟨vs, q⟩ := r
    rw [event, ElementEvent.inside, ValueArray.noticesAll_eq]
    exact flatMap_inside_itemEvents fun v hmem => ih v hmem (hinner v hmem)
  | _ => intro _ name; rfl

end ElementValue

theorem Annot.noticesAll_blank_events {a : Annot} (hd : a.elements.Distinct)
    (hv : a.EveryValue ElementValue.DistinctNames) (d : String) (visible : Bool)
    (p : ReplacePolicy) : Annot.noticesAll (Annot.blank d visible p) (Annot.events a) = [] :=
  ElementValue.noticesAll_entryEvents hd (fun e he => e.2.inside_event p (hv e he)) d visible

theorem ValueArray.noticesAll_blank_events {r : ValueArray}
    (hv : r.EveryValue ElementValue.DistinctNames) (p : ReplacePolicy) :
    ValueArray.noticesAll (ValueArray.blank p) (ValueArray.events r) = [] := by
  rw [ValueArray.noticesAll_eq]
  exact ElementValue.flatMap_inside_itemEvents fun v hmem => v.inside_event p (hv v hmem)

/-! ### Metadata -/

namespace MemberEvent

/-- The descriptor under which an event stores an annotation. -/
def key? : MemberEvent → Option String
  | .annot d _ _ => some d
  | _ => none

@[simp] theorem key?_finish : finish.key? = none := rfl

/-- What the interior of an event reports in a place of a policy. -/
def inside (p : ReplacePolicy) : MemberEvent → List Notice
  | .annot d visible body => Annot.noticesAll (Annot.blank d visible p) body
  | .typeAnnot _ _ d visible body => Annot.noticesAll (Annot.blank d visible p) body
  | _ => []

end MemberEvent

namespace Metadata

/-- What the metadata reports about the entry that an event replaces. -/
def replacing (m : Metadata) : MemberEvent → Option Notice
  | .annot d visible _ => (m.annots.get? d).map fun old => .annotReplaced d old.visible visible
  | _ => none

theorem notices_eq (m : Metadata) (e : MemberEvent) :
    m.notices e = (m.replacing e).toList ++ e.inside m.policy := by
  cases e <;> rfl

theorem policy_absorb (m : Metadata) (e : MemberEvent) : (m.absorb e).policy = m.policy :=
  m.policy_absorbAll [e]

theorem get?_absorb {e : MemberEvent} {d : String} (h : e.key? ≠ some d) (m : Metadata) :
    (m.absorb e).annots.get? d = m.annots.get? d := by
  cases e with
  | annot d' visible body =>
    have hne : d' ≠ d := fun hd => h (congrArg some hd)
    rw [absorb_annot, Table.get?_insert, if_neg hne]
  | typeAnnot ref path d' visible body => cases visible <;> rfl
  | extension x => rfl
  | finish => rfl

theorem notices_absorb {e e' : MemberEvent} (h : ∀ d, e.key? = some d → e'.key? ≠ some d)
    (m : Metadata) : (m.absorb e).notices e' = m.notices e' := by
  have hreplacing : (m.absorb e).replacing e' = m.replacing e' := by
    cases e' with
    | annot d visible body =>
      have hd : e.key? ≠ some d := fun hd => h d hd rfl
      simp only [replacing, get?_absorb hd]
    | _ => rfl
  rw [notices_eq, notices_eq, hreplacing, policy_absorb]

theorem noticesAll_eq_flatMap {es : List MemberEvent} (h : (es.filterMap MemberEvent.key?).Nodup)
    (m : Metadata) : m.noticesAll es = es.flatMap m.notices :=
  reportAll_eq_flatMap h (fun _ _ _ _ hk s => s.notices_absorb hk) m

theorem filterMap_key?_events (m : Metadata) :
    m.events.filterMap MemberEvent.key? = m.annots.values.map (·.descriptor) := by
  simp [events, annotEvent, typeAnnotEvent, MemberEvent.key?, Function.comp_def]

/-- The annotations name different descriptors, and no table inside one of them
lists a name twice. -/
structure Apart (m : Metadata) : Prop where
  descriptors : (m.annots.values.map (·.descriptor)).Nodup
  elements : m.EveryAnnot (·.elements.Distinct)
  values : m.EveryAnnot (Annot.EveryValue ElementValue.DistinctNames)

theorem Apart.inside_events {m : Metadata} (h : m.Apart) (p : ReplacePolicy) :
    ∀ e ∈ m.events, e.inside p = [] := by
  have htypes : ∀ visible, ∀ a ∈ (m.typeAnnots visible).toList,
      (typeAnnotEvent visible a).inside p = [] := fun visible a ha =>
    Annot.noticesAll_blank_events (h.elements.2 visible a ha) (h.values.2 visible a ha) ..
  unfold events
  simp only [List.forall_mem_append, List.forall_mem_map]
  refine ⟨⟨⟨fun a ha => ?_, htypes true⟩, htypes false⟩, fun x _ => rfl⟩
  exact Annot.noticesAll_blank_events (h.elements.1 a ha) (h.values.1 a ha) ..

/-- A blank place replaces nothing. -/
theorem notices_blank (p : ReplacePolicy) (e : MemberEvent) :
    (blank p).notices e = e.inside p := by
  rw [notices_eq]
  cases e <;> rfl

/-- **Metadata that names nothing twice is replayed in silence.** -/
theorem noticesAll_blank_events {m : Metadata} (h : m.Apart) (p : ReplacePolicy) :
    (blank p).noticesAll (m.events ++ [.finish]) = [] := by
  have hkeys : ((m.events ++ [MemberEvent.finish]).filterMap MemberEvent.key?).Nodup := by
    simpa [filterMap_key?_events, List.filterMap_cons] using h.descriptors
  rw [noticesAll_eq_flatMap hkeys, List.flatMap_append, List.flatMap_eq_nil_iff.mpr]
  · rfl
  · intro e he
    rw [notices_blank]
    exact h.inside_events p e he

end Metadata

/-! ### Methods -/

namespace MethodEvent

/-- What the interior of an event reports in a place of a policy. -/
def inside (p : ReplacePolicy) : MethodEvent → List Notice
  | .member e => e.inside p
  | .annotDefault body => ValueArray.noticesAll (ValueArray.blank p) body
  | _ => []

end MethodEvent

namespace MethodDecl

theorem notices_absorb {e e' : MethodEvent}
    (h : ∀ d, e.member?.bind MemberEvent.key? = some d →
      e'.member?.bind MemberEvent.key? ≠ some d) (m : MethodDecl) :
    (m.absorb e).notices e' = m.notices e' := by
  cases e with
  | member e =>
    cases e' with
    | member e' => exact Metadata.notices_absorb h m.metadata
    | annotDefault body => simp only [absorb, notices, Metadata.policy_absorb]
    | _ => rfl
  | _ => cases e' <;> rfl

theorem notices_blank (head : MethodHead) (p : ReplacePolicy) (e : MethodEvent) :
    (blank head p).notices e = e.inside p := by
  cases e with
  | member e => exact Metadata.notices_blank p e
  | _ => rfl

/-- **A method that names nothing twice is replayed in silence.** -/
theorem noticesAll_blank_body {m : MethodDecl} (h : m.metadata.Apart)
    (hv : ∀ r ∈ m.annotDefault, ValueArray.EveryValue ElementValue.DistinctNames r)
    (head : MethodHead) (p : ReplacePolicy) : (blank head p).noticesAll m.body = [] := by
  have hkeys : (m.body.filterMap fun e => e.member?.bind MemberEvent.key?).Nodup := by
    have hmeta := h.descriptors
    rw [← Metadata.filterMap_key?_events] at hmeta
    simpa [body, Function.comp_def, Option.toList_map, List.filterMap_cons] using hmeta
  have hinside : ∀ e ∈ m.body, e.inside p = [] := by
    unfold body
    simp only [List.forall_mem_append, List.forall_mem_map, Option.mem_toList,
      Option.map_eq_some_iff, List.forall_mem_singleton]
    refine ⟨⟨⟨⟨fun _ _ => rfl, ?_⟩, h.inside_events p⟩, ?_⟩, rfl⟩
    · rintro e ⟨r, hr, rfl⟩
      exact ValueArray.noticesAll_blank_events (hv r hr) p
    · rintro e ⟨c, -, rfl⟩
      rfl
  unfold noticesAll
  rw [reportAll_eq_flatMap hkeys fun e _ e' _ hk s => notices_absorb hk s]
  refine List.flatMap_eq_nil_iff.mpr fun e he => ?_
  rw [notices_blank]
  exact hinside e he

end MethodDecl

/-! ### Classes -/

/-- What the interior of an event reports, where members have policy `p` and the
annotations of the class itself have policy `q`. -/
def ClassEvent.inside (p q : ReplacePolicy) : ClassEvent → List Notice
  | .member e => e.inside q
  | .component head body => (ComponentDecl.blank head p).noticesAll body
  | .field head body => (FieldDecl.blank head p).noticesAll body
  | .method head body => (MethodDecl.blank head p).noticesAll body
  | _ => []

namespace ClassDecl

/-- What the class reports about the entry that an event replaces. -/
def replacing (c : ClassDecl) : ClassEvent → Option Notice
  | .member e => c.metadata.replacing e
  | .field head _ =>
    if c.fields.contains head.name then some (.fieldReplaced head.name c.name) else none
  | .method head _ =>
    if c.methods.contains head.key then some (.methodReplaced head.key.text c.name) else none
  | _ => none

theorem notices_eq (c : ClassDecl) (e : ClassEvent) :
    c.notices e = (c.replacing e).toList ++ e.inside c.policy c.metadata.policy := by
  cases e with
  | member e => exact c.metadata.notices_eq e
  | field head body => simp only [notices, replacing]; split <;> rfl
  | method head body => simp only [notices, replacing]; split <;> rfl
  | _ => rfl

theorem get?_metadata_absorb {e : ClassEvent} {d : String} (h : e.key? ≠ some (.annot d))
    (c : ClassDecl) : (c.absorb e).metadata.annots.get? d = c.metadata.annots.get? d := by
  cases e with
  | member e =>
    refine Metadata.get?_absorb (fun hd => h ?_) c.metadata
    cases e <;> cases hd
    rfl
  | _ => rfl

theorem contains_fields_absorb {e : ClassEvent} {name : String} (h : e.key? ≠ some (.field name))
    (c : ClassDecl) : (c.absorb e).fields.contains name = c.fields.contains name := by
  cases e with
  | field head body =>
    have hne : head.name ≠ name := fun hn => h (congrArg (some ∘ ClassEvent.Key.field) hn)
    unfold Table.contains
    rw [absorb_field, Table.get?_insert, if_neg hne]
  | _ => rfl

theorem contains_methods_absorb {e : ClassEvent} {key : MethodKey}
    (h : e.key? ≠ some (.method key)) (c : ClassDecl) :
    (c.absorb e).methods.contains key = c.methods.contains key := by
  cases e with
  | method head body =>
    have hne : head.key ≠ key := fun hk => h (congrArg (some ∘ ClassEvent.Key.method) hk)
    unfold Table.contains
    rw [absorb_method, Table.get?_insert, if_neg hne]
  | _ => rfl

theorem name_absorb {e : ClassEvent} (h : e.header? = none) (c : ClassDecl) :
    (c.absorb e).name = c.name := by
  cases e with
  | header head => cases h
  | _ => rfl

/-- An event changes the report of another one only through the header or
through a key that both have. -/
theorem notices_absorb {e e' : ClassEvent} (hh : e.header? = none)
    (hk : ∀ k, e.key? = some k → e'.key? ≠ some k) (c : ClassDecl) :
    (c.absorb e).notices e' = c.notices e' := by
  have hpolicy : (c.absorb e).policy = c.policy := by cases e <;> rfl
  have hmeta : (c.absorb e).metadata.policy = c.metadata.policy := by
    cases e with
    | member e => exact c.metadata.policy_absorb e
    | _ => rfl
  have hreplacing : (c.absorb e).replacing e' = c.replacing e' := by
    cases e' with
    | member e' =>
      cases e' with
      | annot d visible body =>
        simp only [replacing, Metadata.replacing, get?_metadata_absorb fun hd => hk _ hd rfl]
      | _ => rfl
    | field head body =>
      simp only [replacing, contains_fields_absorb fun hn => hk _ hn rfl, name_absorb hh]
    | method head body =>
      simp only [replacing, contains_methods_absorb fun hn => hk _ hn rfl, name_absorb hh]
    | _ => rfl
  rw [notices_eq, notices_eq, hreplacing, hpolicy, hmeta]

/-- Within each table, of the class and of its members, the entries name
different keys. -/
structure OwnKeysApart (m : ClassDecl) : Prop where
  fields : (m.fields.values.map (·.name)).Nodup
  methods : (m.methods.values.map (·.key)).Nodup
  annots : m.EveryMetadata fun n => (n.annots.values.map (·.descriptor)).Nodup

theorem OwnKeysApart.of_ownKeys {m : ClassDecl} (hd : m.Distinct) (hk : m.OwnKeys) :
    m.OwnKeysApart where
  fields := hk.1.map_values ▸ hd.fields
  methods := hk.2.1.map_values ▸ hd.methods
  annots := by
    intro n hn
    show (n.annots.values.map (·.descriptor)).Nodup
    rw [(hk.2.2 n hn).map_values]
    exact hd.annots n hn

theorem OwnKeysApart.metadata {m : ClassDecl} (hk : m.OwnKeysApart) (hd : m.Distinct) :
    m.EveryMetadata Metadata.Apart := fun n hn =>
  ⟨hk.annots n hn, hd.elements n hn, hd.values.1 n hn⟩

/-- The keys that a replay opens. -/
theorem filterMap_key?_events (m : ClassDecl) : m.events.filterMap ClassEvent.key? =
    m.metadata.annots.values.map (fun a => .annot a.descriptor) ++
      m.fields.values.map (fun f => .field f.name) ++
      m.methods.values.map (fun d => .method d.key) := by
  unfold events
  rw [sourceEvents_eq]
  simp [ClassEvent.key?, Function.comp_def, Option.toList_map, List.filterMap_cons,
    Metadata.events, Metadata.annotEvent, Metadata.typeAnnotEvent, ModuleDecl.event,
    InnerClass.event, ComponentDecl.event, FieldDecl.event, MethodDecl.event]

theorem OwnKeysApart.nodup_keys {m : ClassDecl} (h : m.OwnKeysApart) :
    (m.events.filterMap ClassEvent.key?).Nodup := by
  have hannots := ((everyMetadata_iff _ m).mp h.annots).1
  have hA := hannots.map (f := ClassEvent.Key.annot) fun _ _ => ClassEvent.Key.annot.inj
  have hF := h.fields.map (f := ClassEvent.Key.field) fun _ _ => ClassEvent.Key.field.inj
  have hM := h.methods.map (f := ClassEvent.Key.method) fun _ _ => ClassEvent.Key.method.inj
  rw [List.map_map] at hA hF hM
  rw [filterMap_key?_events]
  refine (hA.append hF ?_).append hM ?_
  · simp [List.disjoint_left]
  · simp [List.disjoint_left, or_imp, forall_and]

/-- Nothing that a replay opens reports from its inside. -/
theorem OwnKeysApart.inside_events {m : ClassDecl} (hk : m.OwnKeysApart) (hd : m.Distinct)
    (p q : ReplacePolicy) : ∀ e ∈ m.events, e.inside p q = [] := by
  obtain ⟨hmeta, hcomponents, hfields, hmethods⟩ := (everyMetadata_iff _ m).mp (hk.metadata hd)
  unfold events
  rw [sourceEvents_eq]
  simp only [List.forall_mem_append, List.forall_mem_map, Option.mem_toList,
    Option.map_eq_some_iff, List.forall_mem_singleton]
  -- one goal for each section of the replay, in its order
  refine ⟨⟨⟨⟨⟨⟨⟨⟨⟨⟨⟨⟨rfl, ?_⟩, ?_⟩, ?_⟩, ?_⟩, hmeta.inside_events q⟩, fun _ _ => rfl⟩,
    fun _ _ => rfl⟩, fun _ _ => rfl⟩, ?_⟩, ?_⟩, ?_⟩, rfl⟩
  · rintro e ⟨s, -, rfl⟩
    rfl
  · rintro e ⟨d, -, rfl⟩
    rfl
  · rintro e ⟨host, -, rfl⟩
    rfl
  · rintro e ⟨o, -, rfl⟩
    rfl
  · exact fun d hmem => Metadata.noticesAll_blank_events (hcomponents d hmem) p
  · exact fun f hmem => Metadata.noticesAll_blank_events (hfields f hmem) p
  · exact fun d hmem =>
      MethodDecl.noticesAll_blank_body (hmethods d hmem) (hd.values.2 d hmem) d.toMethodHead p

/-- A replay opens with the header and has no other. -/
theorem events_eq_cons (m : ClassDecl) : ∃ rest,
    m.events = .header m.toClassHeader :: rest ∧ ∀ e ∈ rest, e.header? = none := by
  have hcons : m.events = .header m.toClassHeader :: m.events.tail := by
    simp only [events, List.cons_append, List.nil_append, List.tail_cons]
  refine ⟨m.events.tail, hcons, fun e he => ?_⟩
  have hone : m.events.filterMap ClassEvent.header? = [m.toClassHeader] := by
    unfold events
    rw [sourceEvents_eq]
    simp [Function.comp_def, Option.toList_map, List.filterMap_cons, ModuleDecl.event,
      InnerClass.event, ComponentDecl.event, FieldDecl.event, MethodDecl.event]
  have hrest : m.events.tail.filterMap ClassEvent.header? = [] := by
    rw [hcons] at hone
    exact (List.cons.inj hone).2
  exact List.filterMap_eq_nil_iff.mp hrest e he

end ClassDecl

/-! ### Gates

A pruning gate lets an event pass whole, or without its interior if it declines
the opening; it reports each declined opening once. -/

/-- How an opening of the class is reported when it is declined. -/
def Opening.pruned? : Opening → Option Notice
  | .moduleInfo name => some (.modulePruned name)
  | .annot d => some (.annotPruned d)
  | .typeAnnot d => some (.typeAnnotPruned d)
  | .component name => some (.componentPruned name)
  | .field name => some (.fieldPruned name)
  | .method signature => some (.methodPruned signature)
  | .annotDefault => none
  | .elementArray _ => none
  | .elementAnnot _ => none

theorem MemberEvent.through_annot (declines : Opening → Bool) (d : String) (visible : Bool)
    (body : List ElementEvent) : (annot d visible body).through (!declines ·) (fun _ => true) =
      .annot d visible (if declines (.annot d) then [] else body) := by
  cases h : declines (.annot d) <;> simp [through, h, ElementEvent.throughAll_true]

theorem MemberEvent.through_typeAnnot (declines : Opening → Bool) (ref : UInt32)
    (path : Option TypePath) (d : String) (visible : Bool) (body : List ElementEvent) :
    (typeAnnot ref path d visible body).through (!declines ·) (fun _ => true) =
      .typeAnnot ref path d visible (if declines (.typeAnnot d) then [] else body) := by
  cases h : declines (.typeAnnot d) <;> simp [through, h, ElementEvent.throughAll_true]

namespace ClassEvent

theorem through_member (declines : Opening → Bool) (e : MemberEvent) :
    (member e).through (.pruning declines) = .member (e.through (!declines ·) fun _ => true) := rfl

theorem through_moduleInfo (declines : Opening → Bool) (head : ModuleHead)
    (body : List ModuleEvent) : (moduleInfo head body).through (.pruning declines) =
      .moduleInfo head (if declines (.moduleInfo head.name) then [] else body) := by
  cases h : declines (.moduleInfo head.name) <;> simp [through, Gate.pruning, h]

theorem through_component (declines : Opening → Bool) (head : ComponentHead)
    (body : List MemberEvent) : (component head body).through (.pruning declines) =
      .component head (if declines (.component head.name) then [] else body) := by
  cases h : declines (.component head.name) <;>
    simp [through, Gate.pruning, h, MemberEvent.through_true]

theorem through_field (declines : Opening → Bool) (head : FieldHead) (body : List MemberEvent) :
    (field head body).through (.pruning declines) =
      .field head (if declines (.field head.name) then [] else body) := by
  cases h : declines (.field head.name) <;>
    simp [through, Gate.pruning, h, MemberEvent.through_true]

theorem through_method (declines : Opening → Bool) (head : MethodHead) (body : List MethodEvent) :
    (method head body).through (.pruning declines) =
      .method head (if declines (.method head.key.text) then [] else body) := by
  cases h : declines (.method head.key.text) <;>
    simp [through, Gate.pruning, h, MethodEvent.through_true]

theorem declined_pruning (declines : Opening → Bool) (e : ClassEvent) :
    e.declined (.pruning declines) =
      ((e.opening?.filter declines).bind Opening.pruned?).toList := by
  cases e with
  | member e =>
    cases e with
    | annot d visible body =>
      cases h : declines (.annot d) <;>
        simp [declined, MemberEvent.declined, Gate.pruning, opening?, MemberEvent.opening?, h,
          Opening.pruned?, Option.filter_some]
    | typeAnnot ref path d visible body =>
      cases h : declines (.typeAnnot d) <;>
        simp [declined, MemberEvent.declined, Gate.pruning, opening?, MemberEvent.opening?, h,
          Opening.pruned?, Option.filter_some]
    | _ => rfl
  | moduleInfo head body =>
    cases h : declines (.moduleInfo head.name) <;>
      simp [declined, Gate.pruning, opening?, h, Opening.pruned?, Option.filter_some]
  | component head body =>
    cases h : declines (.component head.name) <;>
      simp [declined, Gate.pruning, opening?, h, Option.filter_some, Opening.pruned?,
        MemberEvent.declined_true, List.flatMap_eq_nil_iff]
  | field head body =>
    cases h : declines (.field head.name) <;>
      simp [declined, Gate.pruning, opening?, h, Option.filter_some, Opening.pruned?,
        MemberEvent.declined_true, List.flatMap_eq_nil_iff]
  | method head body =>
    cases h : declines (.method head.key.text) <;>
      simp [declined, Gate.pruning, opening?, h, Option.filter_some, Opening.pruned?,
        MethodEvent.declined_true, List.flatMap_eq_nil_iff]
  | _ => rfl

theorem key?_through (declines : Opening → Bool) (e : ClassEvent) :
    (e.through (.pruning declines)).key? = e.key? := by
  cases e with
  | member e => cases e <;> rfl
  | _ => rfl

theorem header?_through (declines : Opening → Bool) (e : ClassEvent) :
    (e.through (.pruning declines)).header? = e.header? := by
  cases e <;> rfl

/-- A declined interior is silent. -/
theorem inside_through {e : ClassEvent} {p q : ReplacePolicy} (h : e.inside p q = [])
    (declines : Opening → Bool) : (e.through (.pruning declines)).inside p q = [] := by
  cases e with
  | member e =>
    cases e with
    | annot d visible body =>
      rw [through_member, MemberEvent.through_annot]
      split
      · exact Annot.noticesAll_eq_reportAll [] (Annot.blank d visible q)
      · exact h
    | typeAnnot ref path d visible body =>
      rw [through_member, MemberEvent.through_typeAnnot]
      split
      · exact Annot.noticesAll_eq_reportAll [] (Annot.blank d visible q)
      · exact h
    | _ => rfl
  | component head body =>
    rw [through_component]
    split
    · rfl
    · exact h
  | field head body =>
    rw [through_field]
    split
    · rfl
    · exact h
  | method head body =>
    rw [through_method]
    split
    · rfl
    · exact h
  | _ => rfl

theorem through_pruning_false (e : ClassEvent) : e.through (.pruning fun _ => false) = e := by
  cases e with
  | member e => exact congrArg member e.through_true
  | component head body => exact through_component ..
  | field head body => exact through_field ..
  | method head body => exact through_method ..
  | _ => rfl

end ClassEvent

theorem ClassDecl.replacing_through (declines : Opening → Bool) (c : ClassDecl) (e : ClassEvent) :
    c.replacing (e.through (.pruning declines)) = c.replacing e := by
  cases e with
  | member e => cases e <;> rfl
  | _ => rfl

theorem ClassDecl.notices_component (c : ClassDecl) (head : ComponentHead)
    (body : List MemberEvent) :
    c.notices (.component head body) = (Metadata.blank c.policy).noticesAll body := rfl

/-- The opening of a field reports first, then its interior. -/
theorem ClassDecl.notices_field (c : ClassDecl) (head : FieldHead) (body : List MemberEvent) :
    c.notices (.field head body) =
      c.notices (.field head []) ++ (Metadata.blank c.policy).noticesAll body := by
  simp [notices, FieldDecl.noticesAll, FieldDecl.blank, Metadata.noticesAll, reportAll]

theorem ClassDecl.notices_method (c : ClassDecl) (head : MethodHead) (body : List MethodEvent) :
    c.notices (.method head body) =
      c.notices (.method head []) ++ (MethodDecl.blank head c.policy).noticesAll body := by
  simp [notices, MethodDecl.noticesAll, reportAll]

/-- Where whatever is entered is entered whole, nothing is skipped in the middle of
an event: the target reports of the event first, then the opening is reported if it
was declined. -/
theorem ClassDecl.gateNotices_pruning (declines : Opening → Bool) (c : ClassDecl)
    (e : ClassEvent) : c.gateNotices (.pruning declines) e =
      c.notices (e.through (.pruning declines)) ++
        ((e.opening?.filter declines).bind Opening.pruned?).toList := by
  rw [← ClassEvent.declined_pruning]
  cases e with
  | component head body =>
    rw [ClassEvent.through_component, notices_component]
    cases h : declines (.component head.name) with
    | true =>
      simp [gateNotices, ClassEvent.declined, Gate.pruning, h, Metadata.noticesAll, reportAll]
    | false =>
      simp [gateNotices, ClassEvent.declined, Gate.pruning, h, Metadata.noticesThrough_true,
        MemberEvent.declined_true]
  | field head body =>
    rw [ClassEvent.through_field, notices_field]
    cases h : declines (.field head.name) with
    | true =>
      simp [gateNotices, ClassEvent.declined, Gate.pruning, h, Metadata.noticesAll, reportAll]
    | false =>
      simp [gateNotices, ClassEvent.declined, Gate.pruning, h, Metadata.noticesThrough_true,
        MemberEvent.declined_true]
  | method head body =>
    rw [ClassEvent.through_method, notices_method]
    cases h : declines (.method head.key.text) with
    | true =>
      simp [gateNotices, ClassEvent.declined, Gate.pruning, h, MethodDecl.noticesAll, reportAll]
    | false =>
      simp [gateNotices, ClassEvent.declined, Gate.pruning, h, MethodDecl.noticesThrough_true,
        MethodEvent.declined_true]
  | _ => rfl

/-! ### Replays -/

namespace ClassDecl

/-- **What a pruned replay reports.** Only the tables of the receiver itself
report, once for each entry that is replaced; they name the class that is
replayed. Whatever is declined is reported after what it replaces. -/
theorem noticesThrough_pruning_events {m : ClassDecl} (hd : m.Distinct) (hk : m.OwnKeysApart)
    (b : ClassDecl) (declines : Opening → Bool) :
    b.noticesThrough (.pruning declines) m.events = m.events.flatMap fun e =>
      ((b.absorb (.header m.toClassHeader)).replacing e).toList ++
        ((e.opening?.filter declines).bind Opening.pruned?).toList := by
  have hinside := hk.inside_events hd b.policy b.metadata.policy
  obtain ⟨rest, hevents, hheader⟩ := m.events_eq_cons
  have hkeys : (rest.filterMap ClassEvent.key?).Nodup := by
    have h := hk.nodup_keys
    rwa [hevents, List.filterMap_cons_none rfl] at h
  rw [hevents, List.forall_mem_cons] at hinside
  -- the header is silent, and from then on nothing changes what a later event reports
  rw [hevents, List.flatMap_cons, noticesThrough, reportAll, reportAll_eq_flatMap hkeys]
  · show rest.flatMap _ = rest.flatMap _
    refine List.flatMap_congr fun e he => ?_
    have hsilent : (e.through (.pruning declines)).inside b.policy b.metadata.policy = [] :=
      ClassEvent.inside_through (hinside.2 e he) declines
    rw [gateNotices_pruning, notices_eq, replacing_through]
    show _ ++ (e.through (.pruning declines)).inside b.policy b.metadata.policy ++ _ = _
    rw [hsilent, List.append_nil]
    rfl
  · intro e he e' _ h s
    rw [gateNotices_pruning, gateNotices_pruning, notices_absorb]
    · rw [ClassEvent.header?_through]
      exact hheader e he
    · rw [ClassEvent.key?_through, ClassEvent.key?_through]
      exact h

/-- A gate that declines nothing changes nothing. -/
theorem noticesThrough_pruning_false (b : ClassDecl) (es : List ClassEvent) :
    b.noticesThrough (.pruning fun _ => false) es = b.noticesAll es := by
  have hnotices : gateNotices (.pruning fun _ => false) = notices := by
    funext c e
    rw [gateNotices_pruning, ClassEvent.through_pruning_false]
    cases e.opening? <;> simp
  unfold noticesThrough noticesAll
  simp only [ClassEvent.through_pruning_false, hnotices]

/-- **What a replay reports.** -/
theorem noticesAll_events {m : ClassDecl} (hd : m.Distinct) (hk : m.OwnKeysApart) (b : ClassDecl) :
    b.noticesAll m.events =
      m.events.filterMap (b.absorb (.header m.toClassHeader)).replacing := by
  rw [← noticesThrough_pruning_false, noticesThrough_pruning_events hd hk,
    List.filterMap_eq_flatMap_toList]
  refine List.flatMap_congr fun e _ => ?_
  cases e.opening? <;> simp

end ClassDecl

end ClassTree

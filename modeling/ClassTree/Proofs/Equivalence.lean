/-
# Equal classes replay alike

Equality and replay read the same data. Equal classes have equal replays, and
where entries stand under their own keys, nested annotations are invisible and
type annotations stand in the list of their flag, everything that is compared
can be read off the replay, so that equal replays come from equal classes only.
A check reads the presence of three lists besides, and nothing else that
equality leaves out (`ClassDecl.beq_is_replay_equivalence`).

Both directions go from the values up, each level by its sections.

Key definitions: `Metadata.Legible`.
-/
import ClassTree.Proofs.Canonical
import ClassTree.Proofs.Sections
import ClassTree.Proofs.Uses

namespace ClassTree

/-! ### Values -/

namespace ElementValue

theorem entryEvents_beq_iff (es es' : List (String × ElementValue)) :
    (entryEvents es == entryEvents es') = true ↔
      (es.map (fun e => e.2.event e.1) == es'.map fun e => e.2.event e.1) = true := by
  rw [entryEvents_eq, entryEvents_eq]
  exact concat_beq_concat_iff rfl ..

theorem itemEvents_beq_iff (vs vs' : List ElementValue) :
    (itemEvents vs == itemEvents vs') = true ↔
      (vs.map (event "") == vs'.map (event "")) = true := by
  rw [itemEvents_eq, itemEvents_eq]
  exact concat_beq_concat_iff rfl ..

/-- Equal elements are listed by equal events if equal values are set by equal
events. -/
theorem entryEvents_beq_of {es es' : List (String × ElementValue)}
    (hes : ∀ e ∈ es, ∀ w, (e.2 == w) = true → ∀ n, (e.2.event n == w.event n) = true)
    (h : (es == es') = true) : (entryEvents es == entryEvents es') = true := by
  refine (entryEvents_beq_iff ..).mpr (map_beq_map (fun e he e' _ hee' => ?_) h)
  obtain ⟨hname, hvalue⟩ := Bool.and_eq_true_iff.mp hee'
  rw [eq_of_beq hname]
  exact hes e he e'.2 hvalue e'.1

theorem itemEvents_beq_of {vs vs' : List ElementValue}
    (hvs : ∀ v ∈ vs, ∀ w, (v == w) = true → ∀ n, (v.event n == w.event n) = true)
    (h : (vs == vs') = true) : (itemEvents vs == itemEvents vs') = true :=
  (itemEvents_beq_iff ..).mpr (map_beq_map (fun v hv w _ hvw => hvs v hv w hvw "") h)

/-- Equal values are set by equal events. -/
theorem event_beq_event (v : ElementValue) :
    ∀ w, (v == w) = true → ∀ n, (v.event n == w.event n) = true := by
  induction v using ElementValue.induct with
  | annot a ih =>
    intro w h n
    cases w with
    | annot b =>
      rw [annot_beq_annot] at h
      obtain ⟨hd, -, helements⟩ := (Annot.beq_iff a b).mp h
      have hbody := entryEvents_beq_of ih helements
      show (ElementEvent.annot n a.descriptor _ == ElementEvent.annot n b.descriptor _) = true
      rw [ElementEvent.annot_beq_annot, hbody, hd, beq_self_eq_true, beq_self_eq_true]
      rfl
    | _ => exact absurd h Bool.false_ne_true
  | array r ih =>
    intro w h n
    cases w with
    | array s =>
      rw [array_beq_array] at h
      have hbody := itemEvents_beq_of ih h
      show (ElementEvent.array n _ == ElementEvent.array n _) = true
      rw [ElementEvent.array_beq_array, hbody, beq_self_eq_true]
      rfl
    | _ => exact absurd h Bool.false_ne_true
  | enum d c =>
    intro w h n
    cases w with
    | enum d' c' =>
      obtain ⟨hd, hc⟩ := Bool.and_eq_true_iff.mp h
      show (n == n && d == d' && c == c') = true
      rw [hd, hc, beq_self_eq_true]
      rfl
    | _ => exact absurd h Bool.false_ne_true
  | _ =>
    intro w h n
    -- a plain value is handed over ready, and so is every value that equals it
    cases w <;> first
      | exact absurd h Bool.false_ne_true
      | exact Bool.and_eq_true_iff.mpr ⟨beq_self_eq_true n, h⟩

/-- Equal events list equal elements if equal events set equal values, under
the same name. -/
theorem beq_of_entryEvents {es es' : List (String × ElementValue)}
    (hes : ∀ e ∈ es, ∀ e' ∈ es', ∀ n n', (e.2.event n == e'.2.event n') = true →
      n = n' ∧ (e.2 == e'.2) = true)
    (h : (entryEvents es == entryEvents es') = true) : (es == es') = true := by
  refine beq_of_map_beq_map (fun e he e' he' hee' => ?_) ((entryEvents_beq_iff ..).mp h)
  obtain ⟨hname, hvalue⟩ := hes e he e' he' e.1 e'.1 hee'
  exact Bool.and_eq_true_iff.mpr ⟨beq_iff_eq.mpr hname, hvalue⟩

theorem beq_of_itemEvents {vs vs' : List ElementValue}
    (hvs : ∀ v ∈ vs, ∀ w ∈ vs', ∀ n n', (v.event n == w.event n') = true →
      n = n' ∧ (v == w) = true)
    (h : (itemEvents vs == itemEvents vs') = true) : (vs == vs') = true :=
  beq_of_map_beq_map (fun v hv w hw hvw => (hvs v hv w hw "" "" hvw).2)
    ((itemEvents_beq_iff ..).mp h)

/-- Where nested annotations are invisible, equal events set equal values. -/
theorem beq_of_event_beq_event (v : ElementValue) : v.Everywhere Invisible →
    ∀ w, w.Everywhere Invisible → ∀ n n', (v.event n == w.event n') = true →
      n = n' ∧ (v == w) = true := by
  induction v using ElementValue.induct with
  | annot a ih =>
    intro hv w hw n n' h
    cases w with
    | annot b =>
      obtain ⟨hflag, hinner⟩ := (everywhere_annot ..).mp hv
      obtain ⟨hflag', hinner'⟩ := (everywhere_annot ..).mp hw
      have hevents : (ElementEvent.annot n a.descriptor (entryEvents a.elements.entries) ==
        ElementEvent.annot n' b.descriptor (entryEvents b.elements.entries)) = true := h
      simp only [ElementEvent.annot_beq_annot, Bool.and_eq_true, beq_iff_eq] at hevents
      obtain ⟨⟨hn, hd⟩, hbody⟩ := hevents
      have helements : (a.elements == b.elements) = true :=
        beq_of_entryEvents (fun e he e' he' => ih e he (hinner e he) e'.2 (hinner' e' he')) hbody
      -- the events do not show the flags, but neither of them is set
      have hvisible : a.visible = b.visible := Eq.trans hflag (Eq.symm hflag')
      rw [annot_beq_annot]
      exact ⟨hn, (Annot.beq_iff a b).mpr ⟨hd, hvisible, helements⟩⟩
    | _ => exact absurd h Bool.false_ne_true
  | array r ih =>
    intro hv w hw n n' h
    cases w with
    | array s =>
      obtain ⟨-, hinner⟩ := (everywhere_array ..).mp hv
      obtain ⟨-, hinner'⟩ := (everywhere_array ..).mp hw
      have hevents : (ElementEvent.array n (itemEvents r.items) ==
        ElementEvent.array n' (itemEvents s.items)) = true := h
      simp only [ElementEvent.array_beq_array, Bool.and_eq_true, beq_iff_eq] at hevents
      obtain ⟨hn, hbody⟩ := hevents
      rw [array_beq_array]
      exact ⟨hn, beq_of_itemEvents
        (fun v hv w hw => ih v hv (hinner v hv) w (hinner' w hw)) hbody⟩
    | _ => exact absurd h Bool.false_ne_true
  | enum d c =>
    intro _ w _ n n' h
    cases w with
    | enum d' c' =>
      obtain ⟨hhead, hc⟩ := Bool.and_eq_true_iff.mp h
      obtain ⟨hn, hd⟩ := Bool.and_eq_true_iff.mp hhead
      exact ⟨eq_of_beq hn, Bool.and_eq_true_iff.mpr ⟨hd, hc⟩⟩
    | _ => exact absurd h Bool.false_ne_true
  | _ =>
    intro _ w _ n n' h
    cases w <;> first
      | exact absurd h Bool.false_ne_true
      | exact (Bool.and_eq_true_iff.mp h).imp_left eq_of_beq

end ElementValue

namespace Annot

theorem events_beq_events {a b : Annot} (h : (a == b) = true) :
    (Annot.events a == Annot.events b) = true :=
  ElementValue.entryEvents_beq_of (fun e _ => e.2.event_beq_event) ((Annot.beq_iff a b).mp h).2.2

theorem beq_of_events_beq_events {a b : Annot} (ha : a.EveryValue ElementValue.Invisible)
    (hb : b.EveryValue ElementValue.Invisible) (hd : a.descriptor = b.descriptor)
    (hv : a.visible = b.visible) (h : (Annot.events a == Annot.events b) = true) :
    (a == b) = true := by
  refine (Annot.beq_iff a b).mpr ⟨hd, hv, ElementValue.beq_of_entryEvents ?_ h⟩
  exact fun e he e' he' => e.2.beq_of_event_beq_event (ha e he) e'.2 (hb e' he')

end Annot

namespace ValueArray

theorem events_beq_events {r s : ValueArray} (h : (r == s) = true) :
    (ValueArray.events r == ValueArray.events s) = true :=
  ElementValue.itemEvents_beq_of (fun v _ => v.event_beq_event) h

theorem beq_of_events_beq_events {r s : ValueArray} (hr : r.EveryValue ElementValue.Invisible)
    (hs : s.EveryValue ElementValue.Invisible)
    (h : (ValueArray.events r == ValueArray.events s) = true) : (r == s) = true :=
  ElementValue.beq_of_itemEvents
    (fun v hv w hw => v.beq_of_event_beq_event (hr v hv) w (hs w hw)) h

end ValueArray

/-! ### Metadata and members -/

namespace Metadata

/-- Everything that is compared can be read off the events. -/
def Legible (m : Metadata) : Prop :=
  m.annots.KeyedBy (·.descriptor) ∧ m.TypesFiled ∧
    m.EveryAnnot (Annot.EveryValue ElementValue.Invisible)

theorem events_beq_events {m n : Metadata} (h : (m == n) = true) : (m.events == n.events) = true := by
  obtain ⟨hannots, htypes, hext⟩ := (beq_iff m n).mp h
  refine (events_beq_iff m n).mpr ⟨?_, fun visible => ?_, hext⟩
  · refine map_beq_map (fun a _ b _ hab => ?_) (Table.values_beq_values hannots)
    obtain ⟨hd, hv, -⟩ := (Annot.beq_iff a b).mp hab
    exact (annotEvent_beq_iff a b).mpr ⟨hd, hv, Annot.events_beq_events hab⟩
  · refine map_beq_map (fun a _ b _ hab => ?_) (htypes visible)
    obtain ⟨href, hpath, hannot⟩ := (TypeAnnot.beq_iff a b).mp hab
    obtain ⟨hd, -, -⟩ := (Annot.beq_iff ..).mp hannot
    exact (typeAnnotEvent_beq_iff visible a b).mpr
      ⟨href, hpath, hd, Annot.events_beq_events hannot⟩

theorem Legible.beq_of_events {m n : Metadata} (hm : m.Legible) (hn : n.Legible)
    (h : (m.events == n.events) = true) : (m == n) = true := by
  obtain ⟨hkeys, hfiled, hinner⟩ := hm
  obtain ⟨hkeys', hfiled', hinner'⟩ := hn
  obtain ⟨hannots, htypes, hext⟩ := (events_beq_iff m n).mp h
  refine (beq_iff m n).mpr ⟨?_, fun visible => ?_, hext⟩
  · refine hkeys.beq_of_values hkeys' (fun a ha b hb hab => ?_) hannots
    obtain ⟨hd, hv, hevents⟩ := (annotEvent_beq_iff a b).mp hab
    exact ⟨hd, Annot.beq_of_events_beq_events (hinner.1 a ha) (hinner'.1 b hb) hd hv hevents⟩
  · refine beq_of_map_beq_map (fun a ha b hb hab => ?_) (htypes visible)
    obtain ⟨href, hpath, hd, hevents⟩ := (typeAnnotEvent_beq_iff visible a b).mp hab
    have hv : a.annot.visible = b.annot.visible := by
      rw [hfiled visible a ha, hfiled' visible b hb]
    exact (TypeAnnot.beq_iff a b).mpr ⟨href, hpath, Annot.beq_of_events_beq_events
      (hinner.2 visible a ha) (hinner'.2 visible b hb) hd hv hevents⟩

end Metadata

namespace MethodDecl

theorem event_beq_event {m n : MethodDecl} (h : (m == n) = true) : (m.event == n.event) = true := by
  obtain ⟨hhead, hparameters, hdefault, hmetadata, hcode⟩ := (beq_iff m n).mp h
  refine (event_beq_iff m n).mpr
    ⟨hhead, hparameters, ?_, Metadata.events_beq_events hmetadata, hcode⟩
  rw [← toList_beq_toList] at hdefault
  exact map_beq_map (fun _ _ _ _ => ValueArray.events_beq_events) hdefault

theorem beq_of_event_beq_event {m n : MethodDecl} (hm : m.metadata.Legible) (hn : n.metadata.Legible)
    (hr : ∀ r ∈ m.annotDefault, ValueArray.EveryValue ElementValue.Invisible r)
    (hs : ∀ r ∈ n.annotDefault, ValueArray.EveryValue ElementValue.Invisible r)
    (h : (m.event == n.event) = true) : m.key = n.key ∧ (m == n) = true := by
  obtain ⟨hhead, hparameters, hdefault, hmetadata, hcode⟩ := (event_beq_iff m n).mp h
  have hkey : m.key = n.key := congrArg MethodHead.key hhead
  refine ⟨hkey, (beq_iff m n).mpr ⟨hhead, hparameters, ?_, hm.beq_of_events hn hmetadata, hcode⟩⟩
  rw [← toList_beq_toList]
  refine beq_of_map_beq_map (fun r hmem s hmem' hrs => ?_) hdefault
  exact ValueArray.beq_of_events_beq_events (hr r (Option.mem_toList.mp hmem))
    (hs s (Option.mem_toList.mp hmem')) hrs

end MethodDecl

/-! ### Classes -/

namespace ClassDecl

/-- Equal classes have equal replays. -/
theorem events_beq_events {a b : ClassDecl} (h : (a == b) = true) :
    (a.events == b.events) = true := by
  obtain ⟨hframe, hmetadata, hcomponents, hfields, hmethods⟩ := (beq_iff a b).mp h
  refine (events_beq_iff a b).mpr ⟨hframe, Metadata.events_beq_events hmetadata, ?_, ?_, ?_⟩
  · refine map_beq_map (fun c _ d _ hcd => ?_) hcomponents
    obtain ⟨hhead, hmetadata⟩ := (ComponentDecl.beq_iff c d).mp hcd
    exact (ComponentDecl.event_beq_iff c d).mpr ⟨hhead, Metadata.events_beq_events hmetadata⟩
  · refine map_beq_map (fun f _ g _ hfg => ?_) (Table.values_beq_values hfields)
    obtain ⟨hhead, hmetadata⟩ := (FieldDecl.beq_iff f g).mp hfg
    exact (FieldDecl.event_beq_iff f g).mpr ⟨hhead, Metadata.events_beq_events hmetadata⟩
  · exact map_beq_map (fun _ _ _ _ => MethodDecl.event_beq_event) (Table.values_beq_values hmethods)

theorem legible_of {c : ClassDecl} (hkeys : c.OwnKeys) (hnested : c.NestedInvisible)
    (hfiled : c.TypesFiled) : c.EveryMetadata Metadata.Legible :=
  fun m hm => ⟨hkeys.2.2 m hm, hfiled m hm, hnested.1 m hm⟩

/-- Where everything can be read off the replays, equal replays come from equal
classes. -/
theorem beq_of_events_beq_events {a b : ClassDecl}
    (ha : a.OwnKeys ∧ a.NestedInvisible ∧ a.TypesFiled)
    (hb : b.OwnKeys ∧ b.NestedInvisible ∧ b.TypesFiled) (h : (a.events == b.events) = true) :
    (a == b) = true := by
  obtain ⟨hkeys, hnested, hfiled⟩ := ha
  obtain ⟨hkeys', hnested', hfiled'⟩ := hb
  obtain ⟨hm, hc, hf, hd⟩ := (everyMetadata_iff _ a).mp (legible_of hkeys hnested hfiled)
  obtain ⟨hm', hc', hf', hd'⟩ := (everyMetadata_iff _ b).mp (legible_of hkeys' hnested' hfiled')
  obtain ⟨hframe, hmetadata, hcomponents, hfields, hmethods⟩ := (events_beq_iff a b).mp h
  refine (beq_iff a b).mpr ⟨hframe, hm.beq_of_events hm' hmetadata, ?_, ?_, ?_⟩
  · refine beq_of_map_beq_map (fun c hmem d hmem' hcd => ?_) hcomponents
    obtain ⟨hhead, hevents⟩ := (ComponentDecl.event_beq_iff c d).mp hcd
    exact (ComponentDecl.beq_iff c d).mpr
      ⟨hhead, (hc c hmem).beq_of_events (hc' d hmem') hevents⟩
  · refine hkeys.1.beq_of_values hkeys'.1 (fun f hmem g hmem' hfg => ?_) hfields
    obtain ⟨hhead, hevents⟩ := (FieldDecl.event_beq_iff f g).mp hfg
    exact ⟨FieldHead.name_eq_of_beq hhead,
      (FieldDecl.beq_iff f g).mpr ⟨hhead, (hf f hmem).beq_of_events (hf' g hmem') hevents⟩⟩
  · refine hkeys.2.1.beq_of_values hkeys'.2.1 (fun m hmem n hmem' hmn => ?_) hmethods
    exact MethodDecl.beq_of_event_beq_event (hd m hmem) (hd' n hmem') (hnested.2 m hmem)
      (hnested'.2 n hmem') hmn

end ClassDecl

/-! ### Checks -/

theorem Metadata.uses_eq_of_beq {m n : Metadata} (h : (m == n) = true) (owner : String) :
    m.uses owner = n.uses owner := by
  obtain ⟨-, htypes, -⟩ := (Metadata.beq_iff m n).mp h
  have hvisible : m.visibleTypeAnnots.toList.isEmpty = n.visibleTypeAnnots.toList.isEmpty :=
    isEmpty_eq_of_beq (htypes true)
  have hinvisible : m.invisibleTypeAnnots.toList.isEmpty = n.invisibleTypeAnnots.toList.isEmpty :=
    isEmpty_eq_of_beq (htypes false)
  unfold uses
  rw [hvisible, hinvisible]

theorem ComponentDecl.uses_eq_of_beq (c d : ComponentDecl) (h : (c == d) = true) :
    c.metadata.uses c.name = d.metadata.uses d.name := by
  obtain ⟨hhead, hmetadata⟩ := (ComponentDecl.beq_iff c d).mp h
  rw [hhead, Metadata.uses_eq_of_beq hmetadata]

theorem FieldDecl.uses_eq_of_beq (f g : FieldDecl) (h : (f == g) = true) :
    f.metadata.uses f.name = g.metadata.uses g.name := by
  obtain ⟨hhead, hmetadata⟩ := (FieldDecl.beq_iff f g).mp h
  rw [FieldHead.name_eq_of_beq hhead, Metadata.uses_eq_of_beq hmetadata]

theorem MethodDecl.uses_eq_of_beq (m n : MethodDecl) (h : (m == n) = true) : m.uses = n.uses := by
  obtain ⟨hhead, hparameters, -, hmetadata, -⟩ := (MethodDecl.beq_iff m n).mp h
  have hempty : m.parameters.toList.isEmpty = n.parameters.toList.isEmpty :=
    isEmpty_eq_of_beq hparameters
  unfold uses
  rw [hempty, hhead, Metadata.uses_eq_of_beq hmetadata]

namespace ClassDecl

/-- Equal classes use the same features if the three lists that a check asks for
are present in the same of them. -/
theorem uses_eq_of_beq {a b : ClassDecl} (h : (a == b) = true)
    (hpermitted : a.permittedSubtypes.isPresent = b.permittedSubtypes.isPresent)
    (hcomponents : a.components.isPresent = b.components.isPresent)
    (hnest : a.nestMembers.isPresent = b.nestMembers.isPresent) : a.uses = b.uses := by
  obtain ⟨hframe, hm, hc, hf, hd⟩ := (beq_iff a b).mp h
  have hmodule := isSome_eq_of_beq hframe.moduleInfo
  have hname : a.name = b.name := congrArg ClassHeader.name hframe.header
  have haccess : a.access = b.access := congrArg ClassHeader.access hframe.header
  unfold uses
  simp only [List.flatMap_def, List.map_reverse]
  rw [hpermitted, hcomponents, hnest, hmodule, hframe.nestHost, hname, haccess,
    Metadata.uses_eq_of_beq hm, map_eq_map_of_beq ComponentDecl.uses_eq_of_beq hc,
    map_eq_map_of_beq FieldDecl.uses_eq_of_beq (Table.values_beq_values hf),
    map_eq_map_of_beq MethodDecl.uses_eq_of_beq (Table.values_beq_values hd)]

/-- **Equality is equivalence under replay.** Equal classes have equal replays,
and a check tells them apart only by the presence of the permitted subtypes, the
components or the nest members. Conversely, equal replays come from equal
classes, if entries stand under their own keys, nested annotations are invisible
and type annotations stand in the list of their flag. Classes with the same
contents compare and replay the same. -/
theorem beq_is_replay_equivalence (a b : ClassDecl) :
    ((a == b) = true → (a.events == b.events) = true ∧
      (a.permittedSubtypes.isPresent = b.permittedSubtypes.isPresent →
        a.components.isPresent = b.components.isPresent →
        a.nestMembers.isPresent = b.nestMembers.isPresent → ∀ t,
          a.check t = b.check t ∧ a.checkNotices t = b.checkNotices t)) ∧
    (a.OwnKeys ∧ a.NestedInvisible ∧ a.TypesFiled → b.OwnKeys ∧ b.NestedInvisible ∧ b.TypesFiled →
      (a.events == b.events) = true → (a == b) = true) ∧
    ∀ c d : ClassDecl, c.contents = a.contents → d.contents = b.contents →
      (c == d) = (a == b) ∧ (c.events == d.events) = (a.events == b.events) := by
  refine ⟨fun h => ⟨events_beq_events h, fun hpermitted hcomponents hnest t =>
      check_congr (uses_eq_of_beq h hpermitted hcomponents hnest) t⟩,
    beq_of_events_beq_events, fun c d hc hd => ⟨beq_congr_contents hc hd, ?_⟩⟩
  rw [← events_contents c, ← events_contents d, hc, hd, events_contents, events_contents]

/-- A class with a constant, an annotation that holds an array of annotations, and
a body, under a policy. -/
def zeroClass (p : ReplacePolicy) (zero : UInt32) (types : AttrList TypeAnnot) : ClassDecl :=
  { blank ⟨p, .standard⟩ with
    name := "A"
    metadata :=
      { Metadata.blank p with
        annots := ⟨[("LA;", ⟨"LA;", true, ⟨[("v", .array ⟨[.annot ⟨"LB;", false, .empty p⟩,
          .float ⟨zero⟩], p⟩)], p⟩⟩)], p⟩
        visibleTypeAnnots := types }
    fields := ⟨[("x", ⟨⟨.empty, "x", "F", none, some (.float ⟨zero⟩)⟩, .blank p⟩)], p⟩
    methods := ⟨[(⟨"m", "()V"⟩, ⟨⟨.empty, "m", "()V", none, []⟩, .absent, none, .blank p,
      some ⟨7, none⟩⟩)], p⟩ }

/-- The two zeros, the policies and an empty list make no difference. -/
theorem zeroClass_replay_equivalence :
    (zeroClass .inPlace 0 .absent == zeroClass .moveToEnd 0x80000000 (.ofList [])) = true ∧
      ((zeroClass .inPlace 0 .absent).events ==
        (zeroClass .moveToEnd 0x80000000 (.ofList [])).events) = true ∧
      ∀ t, (zeroClass .inPlace 0 .absent).check t =
        (zeroClass .moveToEnd 0x80000000 (.ofList [])).check t := by
  have h := beq_is_replay_equivalence (zeroClass .inPlace 0 .absent)
    (zeroClass .moveToEnd 0x80000000 (.ofList []))
  have hbeq := h.2.1 (by decide) (by decide) (by decide)
  have hsame := h.1 hbeq
  exact ⟨hbeq, hsame.1, fun t => (hsame.2 rfl rfl rfl t).1⟩

end ClassDecl

end ClassTree

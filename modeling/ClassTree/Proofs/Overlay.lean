/-
# Replaying a class over another

A class that is replayed into a receiver is laid over it. The header is that of
the replayed class; source, module, nest host and outer class are taken over
where the replayed class has them; lists are appended; and each keyed table of
the receiver holds the replayed entries under their keys and its own entries
under all others (`Table.overlay`), in the order of its own policy. Replayed
parts are replicas in the receiver's policy: nothing is said of them by how they
were built.

The receiver reports each of its entries that is replaced, once: annotations with
both flags, then fields, then methods. By then its header is the new one, so
fields and methods are reported under the name of the replayed class
(`ClassDecl.overlayNotices`).

Key definitions: `Metadata.overlay`, `ClassDecl.overlay`,
`ClassDecl.overlayNotices`.
-/
import ClassTree.Proofs.Replicas
import ClassTree.Proofs.Reports

namespace ClassTree

/-! ### Metadata -/

namespace Metadata

/-- The metadata `n` with a replay of `m` laid over it. -/
def overlay (n m : Metadata) : Metadata where
  annots := n.annots.overlay (m.annots.map (replicaAnnot n.policy))
  visibleTypeAnnots :=
    n.visibleTypeAnnots.extend (m.visibleTypeAnnots.toList.map (TypeAnnot.replica n.policy true))
  invisibleTypeAnnots :=
    n.invisibleTypeAnnots.extend
      (m.invisibleTypeAnnots.toList.map (TypeAnnot.replica n.policy false))
  extensions := n.extensions.extend m.extensions.toList

theorem absorbAll_events_eq_overlay {n m : Metadata} (hn : n.annots.Distinct) (hm : m.Tidy) :
    n.absorbAll m.events = n.overlay m := by
  have htypes := fun visible => List.map_congr_left (hm.typeAnnot_copy_eq_replica n.policy visible)
  rw [absorbAll_events, hm.keyed.rekeyed_values, Table.map_congr (hm.copyAnnot_eq_replica n.policy),
    Table.insertAll_entries hn (hm.distinct.map _)]
  simp only [AttrList.pushAll_eq_extend]
  unfold overlay
  congr 2
  · exact htypes true
  · exact htypes false

end Metadata

/-! ### Classes -/

namespace ClassDecl

/-- The class `b` with a replay of `m` laid over it. -/
def overlay (b m : ClassDecl) : ClassDecl where
  toClassHeader := m.toClassHeader
  sourceFile :=
    if m.sourceFile.isSome || m.sourceDebug.isSome then m.sourceFile else b.sourceFile
  sourceDebug :=
    if m.sourceFile.isSome || m.sourceDebug.isSome then m.sourceDebug else b.sourceDebug
  moduleInfo := (m.moduleInfo.map ModuleDecl.replica).or b.moduleInfo
  outerClass := m.outerClass.or b.outerClass
  nestHost := m.nestHost.or b.nestHost
  metadata := b.metadata.overlay m.metadata
  nestMembers := b.nestMembers.extend m.nestMembers.toList
  permittedSubtypes := b.permittedSubtypes.extend m.permittedSubtypes.toList
  innerClasses := b.innerClasses ++ m.innerClasses
  components := b.components.extend (m.components.toList.map (ComponentDecl.replica b.policy))
  fields := b.fields.overlay (m.fields.map (FieldDecl.replica b.policy))
  methods := b.methods.overlay (m.methods.map (MethodDecl.replica b.policy))
  config := b.config

/-- What `b` reports when `m` is replayed into it: annotations with the flag that
was and the flag that is, then fields and methods, under the name of `m`. -/
def overlayNotices (b m : ClassDecl) : List Notice :=
  m.metadata.annots.values.filterMap (fun a =>
      (b.metadata.annots.get? a.descriptor).map fun old =>
        .annotReplaced a.descriptor old.visible a.visible) ++
    (m.fields.values.filter (b.fields.contains ·.name)).map
      (fun f => .fieldReplaced f.name m.name) ++
    (m.methods.values.filter (b.methods.contains ·.key)).map
      (fun d => .methodReplaced d.key.text m.name)

theorem absorbAll_events_eq_overlay {b m : ClassDecl} (hb : b.Distinct) (hm : m.Distinct)
    (hk : m.OwnKeys) : b.absorbAll m.events = b.overlay m := by
  obtain ⟨htidy, hcomponent, hfield, hmethod⟩ := (everyMetadata_iff _ m).mp (hm.tidy hk)
  have hmeta : b.metadata.absorbAll m.metadata.events = b.metadata.overlay m.metadata :=
    Metadata.absorbAll_events_eq_overlay (hb.annots b.metadata List.mem_cons_self) htidy
  have hsource : m.source?.getD (b.sourceFile, b.sourceDebug) =
      ((b.overlay m).sourceFile, (b.overlay m).sourceDebug) := by
    unfold source? overlay
    dsimp only
    split <;> rfl
  have hmodule : m.moduleInfo.map ModuleDecl.copy = m.moduleInfo.map ModuleDecl.replica :=
    Option.map_congr fun d _ => d.copy_eq_replica
  have hcomponents : m.components.toList.map (ComponentDecl.copy b.policy) =
      m.components.toList.map (ComponentDecl.replica b.policy) :=
    List.map_congr_left fun d hd => ComponentDecl.copy_eq_replica (hcomponent d hd) b.policy
  have hfields : m.fields.map (FieldDecl.copy b.policy) = m.fields.map (FieldDecl.replica b.policy) :=
    Table.map_congr fun f hf => FieldDecl.copy_eq_replica (hfield f hf) b.policy
  have hmethods : m.methods.map (MethodDecl.copy b.policy) =
      m.methods.map (MethodDecl.replica b.policy) :=
    Table.map_congr fun d hd =>
      MethodDecl.copy_eq_replica (hmethod d hd) (hm.values.2 d hd) b.policy
  rw [absorbAll_events, hsource, hmeta, hmodule, hcomponents, hk.1.rekeyed_values,
    hk.2.1.rekeyed_values, hfields, hmethods, Table.insertAll_entries hb.fields (hm.fields.map _),
    Table.insertAll_entries hb.methods (hm.methods.map _)]
  simp only [AttrList.pushAll_eq_extend]
  rfl

/-- What a receiver that has taken over the name replaces in a replay. -/
theorem filterMap_replacing_events (c m : ClassDecl) (hname : c.name = m.name) :
    m.events.filterMap c.replacing = c.overlayNotices m := by
  have hfilter : ∀ {α : Type} (xs : List α) (q : α → Bool) (f : α → Notice),
      xs.filterMap (fun x => if q x then some (f x) else none) = (xs.filter q).map f := by
    intro α xs q f
    rw [← List.filterMap_eq_map, List.filterMap_filter]
    rfl
  -- annotations, fields and methods replace something; the other sections contribute nothing
  unfold events
  rw [sourceEvents_eq]
  simp [overlayNotices, replacing, Metadata.replacing, Function.comp_def, Option.toList_map,
    List.filterMap_cons, Metadata.events, Metadata.annotEvent, Metadata.typeAnnotEvent,
    ModuleDecl.event, InnerClass.event, ComponentDecl.event, FieldDecl.event, MethodDecl.event,
    hname, hfilter]

/-- **A replay lays the class over the receiver,** and the receiver reports what
it replaces, no more. What is laid over are the header and the replicas of the
parts. -/
theorem replay_overlays (b m : ClassDecl) (hb : b.Distinct) (hm : m.Distinct) (hk : m.OwnKeys) :
    b.absorbAll m.events = b.overlay m ∧ b.noticesAll m.events = b.overlayNotices m := by
  refine ⟨absorbAll_events_eq_overlay hb hm hk, ?_⟩
  rw [noticesAll_events hm (.of_ownKeys hm hk)]
  exact filterMap_replacing_events (b.absorb (.header m.toClassHeader)) m rfl

/-- A class with something in every section: an annotation of a flag, a type
annotation, fields of given names, and one list entry, component and module that are
told apart by the class name. -/
def furnished (name : String) (visible : Bool) (p : ReplacePolicy) (fields : List String) :
    ClassDecl :=
  { blank { replacePolicy := p } with
    name
    moduleInfo := some
      { ModuleDecl.blank ⟨name ++ ".module", .empty, none⟩ with
        mainClass := some (name ++ ".Main")
        packages := .ofList [name]
        uses := .ofList [] }
    metadata :=
      { Metadata.blank p with
        annots := ⟨[("LA;", ⟨"LA;", visible,
          ⟨[("v", .annot ⟨"LN;", true, .empty .inPlace⟩)], .inPlace⟩⟩)], p⟩
        visibleTypeAnnots := .ofList [⟨0, none, Annot.blank ("L" ++ name ++ ";") true p⟩] }
    nestMembers := .ofList [name ++ "$1"]
    components := .ofList [.blank ⟨name ++ ".c", "I", none⟩ p]
    fields := ⟨fields.map fun f => (f, .blank ⟨.empty, f, "I", none, none⟩ p), p⟩ }

def receiver : ClassDecl := furnished "B" false .moveToEnd ["x", "y"]

def replayedOver : ClassDecl := furnished "A" true .inPlace ["x", "z"]

/-- The field that both classes have moves to the replayed ones. The module is the
replayed one, without its emptied list; lists have the entries of both; and the
nested annotation has lost its flag and taken over the policy. -/
theorem furnished_replay_overlays :
    receiver.Distinct ∧ replayedOver.Distinct ∧ replayedOver.OwnKeys ∧
    (receiver.absorbAll replayedOver.events).fields.keys = ["y", "x", "z"] ∧
    (receiver.absorbAll replayedOver.events).moduleInfo = some
      { ModuleDecl.blank ⟨"A.module", .empty, none⟩ with
        mainClass := some "A.Main"
        packages := .ofList ["A"] } ∧
    (receiver.absorbAll replayedOver.events).nestMembers.toList = ["B$1", "A$1"] ∧
    (receiver.absorbAll replayedOver.events).components.toList =
      [.blank ⟨"B.c", "I", none⟩ .moveToEnd, .blank ⟨"A.c", "I", none⟩ .moveToEnd] ∧
    (receiver.absorbAll replayedOver.events).metadata.visibleTypeAnnots.toList =
      [⟨0, none, Annot.blank "LB;" true .moveToEnd⟩, ⟨0, none, Annot.blank "LA;" true .moveToEnd⟩] ∧
    (receiver.absorbAll replayedOver.events).metadata.annots.entries =
      [("LA;", ⟨"LA;", true,
        ⟨[("v", .annot ⟨"LN;", false, .empty .moveToEnd⟩)], .moveToEnd⟩⟩)] ∧
    receiver.noticesAll replayedOver.events =
      [.annotReplaced "LA;" false true, .fieldReplaced "x" "A"] := by
  have hb : receiver.Distinct := by decide
  have hm : replayedOver.Distinct := by decide
  have hk : replayedOver.OwnKeys := by decide
  obtain ⟨hstate, hnotices⟩ := replay_overlays receiver replayedOver hb hm hk
  rw [hstate, hnotices]
  exact ⟨hb, hm, hk, rfl, rfl, rfl, rfl, rfl, rfl, rfl⟩

end ClassDecl

end ClassTree

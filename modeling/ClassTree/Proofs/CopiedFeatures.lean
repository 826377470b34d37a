/-
# Which features a replay carries over

A feature of a class that was built from events was brought by one of them
(`ClassDecl.hasFeature_of_absorb`, `ClassDecl.exists_brings_of_absorbAll`). The
events of a replay bring what the class has, and an event whose interior is
skipped brings no more than the whole event. So a tier that accepts a class
accepts every copy of it, whichever openings were declined on the way. A copy can
have less: features go with a skipped interior, with a member that another one of
the same name replaces, and with a list that was emptied and is absent in the
copy.

If fields and methods stand under the keys that they name and the lists that a
check asks for are absent or have entries, a whole replay loses nothing: the copy
uses the same features in the same places in the same order, so a check of it
ends and reports as a check of the class does (`ClassDecl.Retained.uses_replayed`).

Key definitions: `ClassEvent.brings`, `ClassEvent.closed`, `ClassEvent.pruned`,
`ClassDecl.Retained`.
-/
import ClassTree.Proofs.Normal
import ClassTree.Proofs.Requirements

namespace ClassTree

/-! ### Copies of parts -/

namespace Metadata

theorem hasTypeAnnots_copy (p : ReplacePolicy) (m : Metadata) :
    (m.copy p).hasTypeAnnots = m.hasTypeAnnots := by
  unfold copy
  rw [absorbAll_events]
  simp [hasTypeAnnots, AttrList.isEmpty, blank]

theorem uses_copy (p : ReplacePolicy) (m : Metadata) (owner : String) :
    (m.copy p).uses owner = m.uses owner := by
  have huses : ∀ n : Metadata, n.uses owner =
      if n.hasTypeAnnots then [(owner, Feature.typeAnnots)] else [] := fun _ => rfl
  rw [huses, huses, hasTypeAnnots_copy]

/-- Only an event that opens a type annotation adds one, and it adds it to blank
metadata as well. -/
theorem hasTypeAnnots_of_absorb {m : Metadata} {e : MemberEvent}
    (h : (m.absorb e).hasTypeAnnots = true) (p : ReplacePolicy) :
    m.hasTypeAnnots = true ∨ ((blank p).absorb e).hasTypeAnnots = true := by
  cases e with
  | typeAnnot ref path d visible body =>
    refine Or.inr ((hasTypeAnnots_iff _).mpr ⟨visible, ?_⟩)
    rw [absorb_typeAnnot, toList_typeAnnots_push, if_pos rfl]
    exact List.append_ne_nil_of_right_ne_nil _ (List.cons_ne_nil _ _)
  | annot d visible body => exact Or.inl h
  | extension x => exact Or.inl h
  | finish => exact Or.inl h

end Metadata

theorem ComponentDecl.hasTypeAnnots_copy (p : ReplacePolicy) (c : ComponentDecl) :
    (c.copy p).metadata.hasTypeAnnots = c.metadata.hasTypeAnnots := by
  rw [copy_eq, Metadata.hasTypeAnnots_copy]

theorem FieldDecl.hasTypeAnnots_copy (p : ReplacePolicy) (f : FieldDecl) :
    (f.copy p).metadata.hasTypeAnnots = f.metadata.hasTypeAnnots := by
  rw [copy_eq, Metadata.hasTypeAnnots_copy]

namespace MethodDecl

theorem hasTypeAnnots_copy (p : ReplacePolicy) (m : MethodDecl) :
    (m.copy p).metadata.hasTypeAnnots = m.metadata.hasTypeAnnots := by
  rw [copy_eq, Metadata.hasTypeAnnots_copy]

theorem isEmpty_parameters_copy (p : ReplacePolicy) (m : MethodDecl) :
    (m.copy p).parameters.isEmpty = m.parameters.isEmpty := by
  rw [copy_eq]
  simp [AttrList.isEmpty]

theorem uses_copy (p : ReplacePolicy) (m : MethodDecl) : (m.copy p).uses = m.uses := by
  have hmeta := m.metadata.uses_copy p m.name
  rw [copy_eq]
  unfold uses
  dsimp only
  rw [hmeta, AttrList.toList_pushAll]
  rfl

end MethodDecl

/-! ### What an event brings -/

namespace ClassEvent

/-- The features that an event brings to a class with the policy `p`. -/
def brings (p : ReplacePolicy) : ClassEvent → Feature → Bool
  | .header h, .records => h.access.contains .record
  | .moduleInfo _ _, .modules => true
  | .nestHost _, .nesting => true
  | .nestMember _, .nesting => true
  | .permittedSubtype _, .permittedSubtypes => true
  | .member e, .typeAnnots => ((Metadata.blank p).absorb e).hasTypeAnnots
  | .component _ _, .records => true
  | .component head body, .typeAnnots =>
    ((ComponentDecl.blank head p).absorbAll body).metadata.hasTypeAnnots
  | .field head body, .typeAnnots =>
    ((FieldDecl.blank head p).absorbAll body).metadata.hasTypeAnnots
  | .method head body, .typeAnnots =>
    ((MethodDecl.blank head p).absorbAll body).metadata.hasTypeAnnots
  | .method head body, .methodParameters =>
    !((MethodDecl.blank head p).absorbAll body).parameters.isEmpty
  | _, _ => false

/-- The event with its interior skipped. -/
def closed : ClassEvent → ClassEvent
  | .moduleInfo head _ => .moduleInfo head []
  | .component head _ => .component head []
  | .field head _ => .field head []
  | .method head _ => .method head []
  | .member (.annot d visible _) => .member (.annot d visible [])
  | .member (.typeAnnot ref path d visible _) => .member (.typeAnnot ref path d visible [])
  | e => e

/-- The event as it passes a receiver that declines some openings, by whatever
it sees of them. -/
def pruned (declines : ClassEvent → Bool) (e : ClassEvent) : ClassEvent :=
  if declines e then e.closed else e

/-- A pruning gate declines by the kind and the name of the opening. -/
theorem through_pruning_eq (declines : Opening → Bool) (e : ClassEvent) :
    e.through (.pruning declines) = e.pruned fun e => e.opening?.any declines := by
  cases e with
  | member e =>
    cases e with
    | annot d visible body =>
      rw [through_member, MemberEvent.through_annot]
      cases h : declines (.annot d) <;> simp [pruned, closed, opening?, MemberEvent.opening?, h]
    | typeAnnot ref path d visible body =>
      rw [through_member, MemberEvent.through_typeAnnot]
      cases h : declines (.typeAnnot d) <;> simp [pruned, closed, opening?, MemberEvent.opening?, h]
    | _ => rfl
  | moduleInfo head body =>
    rw [through_moduleInfo]
    cases h : declines (.moduleInfo head.name) <;> simp [pruned, closed, opening?, h]
  | component head body =>
    rw [through_component]
    cases h : declines (.component head.name) <;> simp [pruned, closed, opening?, h]
  | field head body =>
    rw [through_field]
    cases h : declines (.field head.name) <;> simp [pruned, closed, opening?, h]
  | method head body =>
    rw [through_method]
    cases h : declines (.method head.key.text) <;> simp [pruned, closed, opening?, h]
  | _ => rfl

/-- Without its interior an event brings no more. -/
theorem brings_of_closed {p : ReplacePolicy} {e : ClassEvent} {f : Feature}
    (h : e.closed.brings p f = true) : e.brings p f = true := by
  cases e with
  | member e =>
    cases e with
    | typeAnnot ref path d visible body =>
      cases f with
      | typeAnnots => cases visible <;> rfl
      | _ => exact h
    | _ => cases f <;> exact h
  | component head body =>
    cases f with
    | typeAnnots => exact absurd h Bool.false_ne_true
    | _ => exact h
  | field head body =>
    cases f with
    | typeAnnots => exact absurd h Bool.false_ne_true
    | _ => exact h
  | method head body =>
    cases f with
    | typeAnnots => exact absurd h Bool.false_ne_true
    | methodParameters => exact absurd h Bool.false_ne_true
    | _ => exact h
  | _ => cases f <;> exact h

theorem brings_of_pruned {p : ReplacePolicy} {declines : ClassEvent → Bool} {e : ClassEvent}
    {f : Feature} (h : (e.pruned declines).brings p f = true) : e.brings p f = true := by
  unfold pruned at h
  split at h
  · exact brings_of_closed h
  · exact h

end ClassEvent

theorem Table.mem_values_of_insert {κ : Type u} {ν : Type v} [DecidableEq κ] {t : Table κ ν}
    {k : κ} {v w : ν} (h : w ∈ (t.insert k v).values) : w ∈ t.values ∨ w = v := by
  obtain ⟨e, he, rfl⟩ := List.mem_map.mp h
  rcases mem_entries_insert he with rfl | he
  · exact Or.inr rfl
  · exact Or.inl (List.mem_map_of_mem he)

namespace ClassDecl

theorem policy_absorb (c : ClassDecl) (e : ClassEvent) : (c.absorb e).policy = c.policy := by
  cases e <;> rfl

/-- **A feature that a class has after an event was there or came with the
event.** -/
theorem hasFeature_of_absorb {c : ClassDecl} {e : ClassEvent} {f : Feature}
    (h : (c.absorb e).hasFeature f = true) :
    c.hasFeature f = true ∨ e.brings c.policy f = true := by
  cases e with
  | header head =>
    cases f with
    | records =>
      rcases (Bool.or_eq_true ..).mp h with h | h
      · exact Or.inr h
      · exact Or.inl ((Bool.or_eq_true ..).mpr (Or.inr h))
    | _ => exact Or.inl h
  | member e =>
    cases f with
    | typeAnnots =>
      rw [hasFeature_typeAnnots_iff] at h ⊢
      rcases h with h | h
      · exact (Metadata.hasTypeAnnots_of_absorb h c.policy).imp_left Or.inl
      · exact Or.inl (Or.inr h)
    | _ => exact Or.inl h
  | component head body =>
    rw [absorb_component] at h
    cases f with
    | typeAnnots =>
      rw [hasFeature_typeAnnots_iff] at h ⊢
      rcases h with h | ⟨d, hd, h⟩ | h
      · exact Or.inl (Or.inl h)
      · rcases List.mem_append.mp hd with hd | hd
        · exact Or.inl (Or.inr (Or.inl ⟨d, hd, h⟩))
        · rw [List.mem_singleton.mp hd] at h
          exact Or.inr h
      · exact Or.inl (Or.inr (Or.inr h))
    | records => exact Or.inr rfl
    | _ => exact Or.inl h
  | field head body =>
    rw [absorb_field] at h
    cases f with
    | typeAnnots =>
      rw [hasFeature_typeAnnots_iff] at h ⊢
      rcases h with h | h | ⟨x, hx, h⟩ | h
      · exact Or.inl (Or.inl h)
      · exact Or.inl (Or.inr (Or.inl h))
      · rcases Table.mem_values_of_insert hx with hx | rfl
        · exact Or.inl (Or.inr (Or.inr (Or.inl ⟨x, hx, h⟩)))
        · exact Or.inr h
      · exact Or.inl (Or.inr (Or.inr (Or.inr h)))
    | _ => exact Or.inl h
  | method head body =>
    rw [absorb_method] at h
    cases f with
    | typeAnnots =>
      rw [hasFeature_typeAnnots_iff] at h ⊢
      rcases h with h | h | h | ⟨x, hx, h⟩
      · exact Or.inl (Or.inl h)
      · exact Or.inl (Or.inr (Or.inl h))
      · exact Or.inl (Or.inr (Or.inr (Or.inl h)))
      · rcases Table.mem_values_of_insert hx with hx | rfl
        · exact Or.inl (Or.inr (Or.inr (Or.inr ⟨x, hx, h⟩)))
        · exact Or.inr h
    | methodParameters =>
      obtain ⟨x, hx, h⟩ := List.any_eq_true.mp h
      rcases Table.mem_values_of_insert hx with hx | rfl
      · exact Or.inl (List.any_eq_true.mpr ⟨x, hx, h⟩)
      · exact Or.inr h
    | _ => exact Or.inl h
  | moduleInfo head body =>
    cases f with
    | modules => exact Or.inr rfl
    | _ => exact Or.inl h
  | nestHost name =>
    cases f with
    | nesting => exact Or.inr rfl
    | _ => exact Or.inl h
  | nestMember name =>
    cases f with
    | nesting => exact Or.inr rfl
    | _ => exact Or.inl h
  | permittedSubtype name =>
    cases f with
    | permittedSubtypes => exact Or.inr rfl
    | _ => exact Or.inl h
  | source file debug => cases f <;> exact Or.inl h
  | outerClass o => cases f <;> exact Or.inl h
  | innerClass i => cases f <;> exact Or.inl h

/-- A run of events brings what one of them brings. -/
theorem exists_brings_of_absorbAll {f : Feature} (es : List ClassEvent) : ∀ {c : ClassDecl},
    (c.absorbAll es).hasFeature f = true →
      c.hasFeature f = true ∨ ∃ e ∈ es, e.brings c.policy f = true := by
  induction es with
  | nil => exact fun h => Or.inl h
  | cons e es ih =>
    intro c h
    rcases ih h with h | ⟨e', he', h⟩
    · exact (hasFeature_of_absorb h).imp_right fun he => ⟨e, List.mem_cons_self, he⟩
    · rw [policy_absorb] at h
      exact Or.inr ⟨e', List.mem_cons_of_mem e he', h⟩

theorem hasFeature_blank (c : Config) (f : Feature) : (blank c).hasFeature f = false := by
  cases f with
  | records =>
    have hflag : Access.empty.contains .record = false := by decide
    exact Bool.or_eq_false_iff.mpr ⟨hflag, rfl⟩
  | _ => rfl

end ClassDecl

/-! ### What a replay brings -/

theorem AttrList.isPresent_of_mem {α : Type u} {l : AttrList α} {x : α} (h : x ∈ l.toList) :
    l.isPresent = true := by
  obtain ⟨_ | xs⟩ := l
  · exact absurd h List.not_mem_nil
  · rfl

/-- Metadata whose replay opens a type annotation has one. -/
theorem Metadata.hasTypeAnnots_of_mem_events {m : Metadata} {e : MemberEvent} (he : e ∈ m.events)
    {p : ReplacePolicy} (h : ((blank p).absorb e).hasTypeAnnots = true) :
    m.hasTypeAnnots = true := by
  unfold events at he
  simp only [List.mem_append, List.mem_map] at he
  rcases he with ((⟨a, -, rfl⟩ | ⟨a, ha, rfl⟩) | ⟨a, ha, rfl⟩) | ⟨x, -, rfl⟩
  · exact absurd h Bool.false_ne_true
  · exact m.hasTypeAnnots_iff.mpr ⟨true, List.ne_nil_of_mem ha⟩
  · exact m.hasTypeAnnots_iff.mpr ⟨false, List.ne_nil_of_mem ha⟩
  · exact absurd h Bool.false_ne_true

namespace ClassDecl

/-- Every event of a replay brings features of the class. -/
theorem hasFeature_of_mem_events {m : ClassDecl} {e : ClassEvent} (he : e ∈ m.events)
    {p : ReplacePolicy} {f : Feature} (h : e.brings p f = true) : m.hasFeature f = true := by
  unfold events at he
  simp only [List.mem_append, List.mem_map, List.mem_singleton, Option.mem_toList,
    Option.map_eq_some_iff] at he
  rcases he with (((((((((((rfl | hsource) | ⟨d, hd, rfl⟩) | ⟨name, hname, rfl⟩) | ⟨o, -, rfl⟩) |
    ⟨a, ha, rfl⟩) | ⟨name, hname, rfl⟩) | ⟨name, hname, rfl⟩) | ⟨i, -, rfl⟩) | ⟨d, hd, rfl⟩) |
    ⟨x, hx, rfl⟩) | ⟨x, hx, rfl⟩) | rfl
  · -- the header
    cases f with
    | records => exact (Bool.or_eq_true ..).mpr (Or.inl h)
    | _ => exact absurd h Bool.false_ne_true
  · -- the source
    unfold sourceEvents at hsource
    split at hsource
    · rw [List.mem_singleton.mp hsource] at h
      cases f <;> exact absurd h Bool.false_ne_true
    · exact absurd hsource List.not_mem_nil
  · -- the module
    cases f with
    | modules => exact Option.isSome_iff_exists.mpr ⟨d, hd⟩
    | _ => exact absurd h Bool.false_ne_true
  · -- the nest host
    cases f with
    | nesting =>
      exact (Bool.or_eq_true ..).mpr (Or.inl (Option.isSome_iff_exists.mpr ⟨name, hname⟩))
    | _ => exact absurd h Bool.false_ne_true
  · -- the outer class
    cases f <;> exact absurd h Bool.false_ne_true
  · -- metadata
    cases f with
    | typeAnnots =>
      exact (hasFeature_typeAnnots_iff _).mpr (Or.inl (Metadata.hasTypeAnnots_of_mem_events ha h))
    | _ => exact absurd h Bool.false_ne_true
  · -- nest members
    cases f with
    | nesting => exact (Bool.or_eq_true ..).mpr (Or.inr (AttrList.isPresent_of_mem hname))
    | _ => exact absurd h Bool.false_ne_true
  · -- permitted subtypes
    cases f with
    | permittedSubtypes => exact AttrList.isPresent_of_mem hname
    | _ => exact absurd h Bool.false_ne_true
  · -- inner classes
    cases f <;> exact absurd h Bool.false_ne_true
  · -- components
    cases f with
    | records => exact (Bool.or_eq_true ..).mpr (Or.inr (AttrList.isPresent_of_mem hd))
    | typeAnnots =>
      have htypes := (d.hasTypeAnnots_copy p).symm.trans h
      exact (hasFeature_typeAnnots_iff _).mpr (Or.inr (Or.inl ⟨d, hd, htypes⟩))
    | _ => exact absurd h Bool.false_ne_true
  · -- fields
    cases f with
    | typeAnnots =>
      have htypes := (x.hasTypeAnnots_copy p).symm.trans h
      exact (hasFeature_typeAnnots_iff _).mpr (Or.inr (Or.inr (Or.inl ⟨x, hx, htypes⟩)))
    | _ => exact absurd h Bool.false_ne_true
  · -- methods
    cases f with
    | typeAnnots =>
      have htypes := (x.hasTypeAnnots_copy p).symm.trans h
      exact (hasFeature_typeAnnots_iff _).mpr (Or.inr (Or.inr (Or.inr ⟨x, hx, htypes⟩)))
    | methodParameters =>
      have hcopy : (!(x.copy p).parameters.isEmpty) = true := h
      rw [MethodDecl.isEmpty_parameters_copy] at hcopy
      exact List.any_eq_true.mpr ⟨x, hx, hcopy⟩
    | _ => exact absurd h Bool.false_ne_true
  · -- the end
    cases f <;> exact absurd h Bool.false_ne_true

/-- A replay brings nothing that the class does not have, whatever is declined. -/
theorem hasFeature_of_pruned {m : ClassDecl} {c : Config} {declines : ClassEvent → Bool}
    {f : Feature}
    (h : ((blank c).absorbAll (m.events.map (·.pruned declines))).hasFeature f = true) :
    m.hasFeature f = true := by
  rcases exists_brings_of_absorbAll _ h with h | ⟨e', he', h⟩
  · rw [hasFeature_blank] at h
    exact absurd h Bool.false_ne_true
  · obtain ⟨e, he, rfl⟩ := List.mem_map.mp he'
    exact hasFeature_of_mem_events he (ClassEvent.brings_of_pruned h)

theorem check_pruned {m : ClassDecl} {t : Tier} (h : m.check t = .ok ()) (c : Config)
    (declines : ClassEvent → Bool) :
    ((blank c).absorbAll (m.events.map (·.pruned declines))).check t = .ok () := by
  rw [check_eq_ok_iff] at h ⊢
  exact (requiredTier_le_requiredTier fun _ => hasFeature_of_pruned).trans h

end ClassDecl

/-! ### Replays that lose nothing -/

/-- Values that stand under their own keys are all copied, in order. -/
theorem Table.KeyedBy.values_insertAll_rekeyed {κ : Type u} {ν : Type v} [DecidableEq κ]
    {key : ν → κ} {t : Table κ ν} (hk : t.KeyedBy key) (hd : t.Distinct) (build : ν → ν)
    (p : ReplacePolicy) :
    ((empty p).insertAll (rekeyed key build t.values)).values = t.values.map build := by
  have hnodup : ((t.map build).entries.map (·.1)).Nodup := hd.map build
  rw [hk.rekeyed_values, insertAll_empty_of_nodup hnodup]
  simp [values, map, Function.comp_def]

/-- Fields and methods stand under their own keys, and no list whose presence a
check asks for was emptied. -/
structure ClassDecl.Retained (c : ClassDecl) : Prop where
  distinctFields : c.fields.Distinct
  fields : c.fields.KeyedBy (·.name)
  distinctMethods : c.methods.Distinct
  methods : c.methods.KeyedBy (·.key)
  permittedSubtypes : c.permittedSubtypes.Tight
  components : c.components.Tight
  nestMembers : c.nestMembers.Tight

namespace ClassDecl

/-- The copy of such a class uses what the class uses, in the same places and in
the same order. -/
theorem Retained.uses_replayed {m : ClassDecl} (h : m.Retained) (c : Config) :
    (m.replayed c).uses = m.uses := by
  have hpresent : (AttrList.absent.pushAll
      (m.components.toList.map (ComponentDecl.copy c.replacePolicy))).isPresent =
        m.components.isPresent := by
    rw [h.components.pushAll_map fun _ _ => rfl, AttrList.isPresent_map]
  have hcomponents : (m.components.toList.map (ComponentDecl.copy c.replacePolicy)).reverse.flatMap
      (fun d => d.metadata.uses d.name) =
        m.components.toList.reverse.flatMap fun d => d.metadata.uses d.name := by
    rw [← List.map_reverse, List.flatMap_map]
    simp only [ComponentDecl.copy_eq, Metadata.uses_copy]
  have hfields : (m.fields.values.map (FieldDecl.copy c.replacePolicy)).flatMap
      (fun f => f.metadata.uses f.name) =
        m.fields.values.flatMap fun f => f.metadata.uses f.name := by
    rw [List.flatMap_map]
    simp only [FieldDecl.copy_eq, Metadata.uses_copy]
  have hmethods : (m.methods.values.map (MethodDecl.copy c.replacePolicy)).flatMap MethodDecl.uses =
      m.methods.values.flatMap MethodDecl.uses := by
    rw [List.flatMap_map]
    simp only [MethodDecl.uses_copy]
  rw [replayed_eq]
  unfold uses
  dsimp only
  rw [h.permittedSubtypes.pushAll_toList, h.nestMembers.pushAll_toList, hpresent, Option.isSome_map,
    Metadata.uses_copy, AttrList.toList_pushAll, AttrList.toList_absent, List.nil_append,
    h.fields.values_insertAll_rekeyed h.distinctFields,
    h.methods.values_insertAll_rekeyed h.distinctMethods, hcomponents, hfields, hmethods]

/-- An emptied list counts in the class and not in its copy. -/
example : let m : ClassDecl := { blank {} with permittedSubtypes := .ofList [] }
    m.requiredTier = .experimental ∧ (m.replayed {}).requiredTier = .v4 := by
  decide

/-- **A replay never needs a later tier than the class.** A tier that accepts a
class accepts what a replay of it leaves with a receiver that declines some
openings, be they chosen freely or by a gate. A whole replay of a class that
loses nothing is checked as the class is, with the same report. -/
theorem replay_needs_no_later_tier (m : ClassDecl) (c : Config) (t : Tier) :
    (m.check t = .ok () →
      (∀ declines : ClassEvent → Bool,
        ((blank c).absorbAll (m.events.map (·.pruned declines))).check t = .ok ()) ∧
      ∀ declines : Opening → Bool,
        ((blank c).absorbThrough (.pruning declines) m.events).check t = .ok ()) ∧
    (m.Retained →
      ((blank c).absorbAll m.events).check t = m.check t ∧
        ((blank c).absorbAll m.events).checkNotices t = m.checkNotices t) := by
  refine ⟨fun h => ⟨check_pruned h c, fun declines => ?_⟩,
    fun h => check_congr (h.uses_replayed c) t⟩
  unfold absorbThrough
  simp only [ClassEvent.through_pruning_eq]
  exact check_pruned h c _

/-- A nest host with one method, which has a parameter. -/
def nestHostClass : ClassDecl :=
  { blank {} with
    name := "H"
    nestMembers := .ofList ["H$I"]
    methods := ⟨[(⟨"m", "(I)V"⟩,
      { MethodDecl.blank ⟨.empty, "m", "(I)V", none, []⟩ .inPlace with
        parameters := .ofList [⟨some "x", .empty⟩] })], .inPlace⟩ }

/-- Declined or not, the method stays within the tier of the nest, and a refusal
names the same place. -/
theorem nestHostClass_replay_needs_no_later_tier :
    nestHostClass.check .v7 = .ok () ∧ nestHostClass.Retained ∧
    ((blank {}).absorbAll (nestHostClass.events.map (·.pruned fun _ => true))).check .v7 = .ok () ∧
    ((blank {}).absorbThrough (.pruning (· = .method "m(I)V")) nestHostClass.events).check .v7 =
      .ok () ∧
    ((blank {}).absorbAll nestHostClass.events).check .v4 = .error ⟨"H", .nesting, .v4⟩ ∧
    ((blank {}).absorbAll nestHostClass.events).checkNotices .v4 =
      [.unavailable ⟨"H", .nesting, .v4⟩] := by
  have haccepts : nestHostClass.check .v7 = .ok () := rfl
  have hretained : nestHostClass.Retained := by constructor <;> decide
  have hrefuses : nestHostClass.check .v4 = .error ⟨"H", .nesting, .v4⟩ := rfl
  have hreports : nestHostClass.checkNotices .v4 = [.unavailable ⟨"H", .nesting, .v4⟩] := rfl
  have h7 := (replay_needs_no_later_tier nestHostClass {} .v7).1 haccepts
  have h4 := (replay_needs_no_later_tier nestHostClass {} .v4).2 hretained
  exact ⟨haccepts, hretained, h7.1 _, h7.2 _, h4.1.trans hrefuses, h4.2.trans hreports⟩

end ClassDecl

end ClassTree

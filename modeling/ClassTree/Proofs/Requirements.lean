/-
# The tier that a class needs

A class has features: some are shapes of the class itself, the others stand
anywhere below it. Each begins at a tier, and the class needs the highest of
these (`ClassDecl.requiredTier`). A check accepts the class from that tier on
and at no tier before (`ClassDecl.check_eq_ok_iff`); permitted subtypes fit in,
since the one tier that has them is the last.

What a class absorbs adds to its features. Only a header can take one away, with
the record flag, and a field or a method that replaces another one, with what
hung below it; every other event leaves the class needing at least what it
needed before (`ClassDecl.Adds`, `ClassDecl.hasFeature_absorb`).

Key definitions: `Tier.highest`, `ClassDecl.hasFeature`,
`ClassDecl.requiredTier`, `ClassDecl.Adds`.
-/
import ClassTree.Proofs.Absorption
import ClassTree.Proofs.Everywhere
import ClassTree.Proofs.Placement
import ClassTree.Proofs.Uses
import Mathlib.Order.MinMax

namespace ClassTree

/-! ### The highest of some tiers -/

namespace Tier

theorem rank_injective : Function.Injective rank := by
  intro s t h
  have hread := ofRank?_rank s
  rw [h, ofRank?_rank t] at hread
  exact (Option.some.inj hread).symm

instance : Max Tier := maxOfLe
instance : Min Tier := minOfLe

theorem rank_max (s t : Tier) : (max s t).rank = max s.rank t.rank := by
  cases s <;> cases t <;> rfl

theorem rank_min (s t : Tier) : (min s t).rank = min s.rank t.rank := by
  cases s <;> cases t <;> rfl

/-- Tiers are ordered as their numbers are. -/
instance : LinearOrder Tier :=
  rank_injective.linearOrder rank (le_def _ _).symm (lt_def _ _).symm rank_min rank_max fun _ _ => rfl

/-- The highest of the tiers; the first tier of all if none is given. -/
def highest (ts : List Tier) : Tier := ts.foldr max .v4

theorem highest_le_iff (ts : List Tier) (t : Tier) : highest ts ≤ t ↔ ∀ s ∈ ts, s ≤ t := by
  induction ts with
  | nil =>
    have hfirst : highest [] ≤ t := by cases t <;> decide
    simp [hfirst]
  | cons s ts ih =>
    have hcons : highest (s :: ts) = max s (highest ts) := rfl
    rw [hcons, max_le_iff, ih, List.forall_mem_cons]

/-- A tier accepts a list of uses if none of them begins above it. -/
theorem verdict_eq_ok_iff (t : Tier) (us : List (String × Feature)) :
    t.verdict us = .ok () ↔ ∀ u ∈ us, u.2.minimumTier ≤ t := by
  have hfind : us.find? (fun u => t < u.2.minimumTier) = none ↔
      ∀ u ∈ us, u.2.minimumTier ≤ t := by
    simp only [List.find?_eq_none, decide_eq_true_eq, not_lt]
  rw [← hfind]
  unfold verdict
  cases us.find? fun u => t < u.2.minimumTier with
  | none => simp
  | some u => simp

end Tier

/-! ### Features -/

namespace ClassDecl

/-- Whether the class has a feature, in itself or in a part of it. -/
def hasFeature (c : ClassDecl) : Feature → Bool
  | .typeAnnots => c.allMetadata.any (·.hasTypeAnnots)
  | .methodParameters => c.methods.values.any (!·.parameters.isEmpty)
  | .modules => c.moduleInfo.isSome
  | .nesting => c.isNested
  | .records => c.isRecord
  | .permittedSubtypes => c.permittedSubtypes.isPresent

/-- The tier that the class needs: the highest of those at which its features
begin. -/
def requiredTier (c : ClassDecl) : Tier :=
  Tier.highest ((Feature.all.filter c.hasFeature).map Feature.minimumTier)

end ClassDecl

theorem Metadata.mem_uses_iff (m : Metadata) (owner : String) (u : String × Feature) :
    u ∈ m.uses owner ↔ m.hasTypeAnnots = true ∧ u = (owner, .typeAnnots) := by
  have huses : m.uses owner = if m.hasTypeAnnots then [(owner, .typeAnnots)] else [] := rfl
  rw [huses]
  cases m.hasTypeAnnots <;> simp

theorem MethodDecl.mem_uses_iff (m : MethodDecl) (u : String × Feature) :
    u ∈ m.uses ↔ (!m.parameters.isEmpty) = true ∧ u = (m.name, .methodParameters) ∨
      m.metadata.hasTypeAnnots = true ∧ u = (m.name, .typeAnnots) := by
  have hparameters : (if !m.parameters.toList.isEmpty then [(m.name, Feature.methodParameters)]
      else []) = if !m.parameters.isEmpty then [(m.name, .methodParameters)] else [] := rfl
  unfold uses
  rw [List.mem_append, Metadata.mem_uses_iff, hparameters]
  cases m.parameters.isEmpty <;> simp

namespace ClassDecl

theorem hasFeature_typeAnnots_iff (c : ClassDecl) : c.hasFeature .typeAnnots = true ↔
    c.metadata.hasTypeAnnots = true ∨
      (∃ d ∈ c.components.toList, d.metadata.hasTypeAnnots = true) ∨
      (∃ f ∈ c.fields.values, f.metadata.hasTypeAnnots = true) ∨
      ∃ m ∈ c.methods.values, m.metadata.hasTypeAnnots = true := by
  simp only [hasFeature, allMetadata, List.any_cons, List.any_append, List.any_map,
    Bool.or_eq_true, List.any_eq_true, Function.comp_apply, or_assoc]

/-- The uses of a class are its features. -/
theorem exists_mem_uses_iff (c : ClassDecl) (f : Feature) :
    (∃ owner, (owner, f) ∈ c.uses) ↔ c.hasFeature f = true := by
  unfold uses
  simp only [List.mem_append, List.mem_flatMap, List.mem_reverse, Metadata.mem_uses_iff,
    MethodDecl.mem_uses_iff, List.mem_ite_nil_right, List.mem_singleton, Prod.mk.injEq]
  cases f with
  | typeAnnots =>
    -- the one feature that can stand in every part, each time under the name of its owner
    simp only [hasFeature_typeAnnots_iff, reduceCtorEq, and_false, and_true, false_or]
    constructor
    · rintro ⟨owner, ((⟨h, -⟩ | ⟨d, hd, h, -⟩) | ⟨f, hf, h, -⟩) | ⟨m, hm, h, -⟩⟩
      · exact Or.inl h
      · exact Or.inr (Or.inl ⟨d, hd, h⟩)
      · exact Or.inr (Or.inr (Or.inl ⟨f, hf, h⟩))
      · exact Or.inr (Or.inr (Or.inr ⟨m, hm, h⟩))
    · rintro (h | ⟨d, hd, h⟩ | ⟨f, hf, h⟩ | ⟨m, hm, h⟩)
      · exact ⟨c.name, Or.inl (Or.inl (Or.inl ⟨h, rfl⟩))⟩
      · exact ⟨d.name, Or.inl (Or.inl (Or.inr ⟨d, hd, h, rfl⟩))⟩
      · exact ⟨f.name, Or.inl (Or.inr ⟨f, hf, h, rfl⟩)⟩
      · exact ⟨m.name, Or.inr ⟨m, hm, h, rfl⟩⟩
  | methodParameters => simp [hasFeature]
  | modules => simp [hasFeature]
  | nesting => simp [hasFeature, isNested]
  | records => simp [hasFeature, isRecord]
  | permittedSubtypes => simp [hasFeature]

/-! ### Acceptance -/

theorem requiredTier_le_iff (c : ClassDecl) (t : Tier) :
    c.requiredTier ≤ t ↔ ∀ f, c.hasFeature f = true → f.minimumTier ≤ t := by
  have hall : ∀ f : Feature, f ∈ Feature.all := fun f => by cases f <;> decide
  unfold requiredTier
  rw [Tier.highest_le_iff, List.forall_mem_map]
  constructor
  · intro h f hf
    exact h f (List.mem_filter.mpr ⟨hall f, hf⟩)
  · intro h f hf
    exact h f (List.mem_filter.mp hf).2

/-- A class that has less needs no more. -/
theorem requiredTier_le_requiredTier {c d : ClassDecl}
    (h : ∀ f, c.hasFeature f = true → d.hasFeature f = true) : c.requiredTier ≤ d.requiredTier := by
  have hd := (d.requiredTier_le_iff d.requiredTier).mp le_rfl
  exact (c.requiredTier_le_iff _).mpr fun f hf => hd f (h f hf)

/-- **A check accepts a class from its required tier on, and at no tier before.** -/
theorem check_eq_ok_iff (c : ClassDecl) (t : Tier) : c.check t = .ok () ↔ c.requiredTier ≤ t := by
  rw [check_eq_verdict, Tier.verdict_eq_ok_iff, requiredTier_le_iff]
  constructor
  · intro h f hf
    obtain ⟨owner, hu⟩ := (c.exists_mem_uses_iff f).mpr hf
    exact h (owner, f) hu
  · rintro h ⟨owner, f⟩ hu
    exact h f ((c.exists_mem_uses_iff f).mp ⟨owner, hu⟩)

/-- What the caller of a check sees: the error of a refusal names the tier that
was asked for. -/
theorem mapError_check (c : ClassDecl) (t : Tier) : (c.check t).mapError Violation.tier =
    if c.requiredTier ≤ t then .ok () else .error t := by
  by_cases h : c.requiredTier ≤ t
  · rw [if_pos h, (c.check_eq_ok_iff t).mpr h]
    rfl
  · have hrefused : c.check t ≠ .ok () := mt (c.check_eq_ok_iff t).mp h
    rw [if_neg h]
    rw [check_eq_verdict] at hrefused ⊢
    unfold Tier.verdict at hrefused ⊢
    cases hfind : c.uses.find? fun u => t < u.2.minimumTier with
    | some u => rfl
    | none => exact absurd (by rw [hfind]) hrefused

/-! ### Growth -/

end ClassDecl

/-- Under a new key nothing is replaced. -/
theorem Table.mem_values_insert_of_not_mem {κ : Type u} {ν : Type v} [DecidableEq κ]
    {t : Table κ ν} {k : κ} (h : k ∉ t.keys) (v : ν) {w : ν} (hw : w ∈ t.values) :
    w ∈ (t.insert k v).values := by
  rw [insert_of_not_mem h]
  unfold values
  rw [List.map_append]
  exact List.mem_append_left _ hw

theorem Metadata.hasTypeAnnots_iff (m : Metadata) : m.hasTypeAnnots = true ↔
    ∃ visible, (m.typeAnnots visible).toList ≠ [] := by
  simp [hasTypeAnnots, AttrList.isEmpty, typeAnnots, or_comm]

/-- Type annotations are only ever appended. -/
theorem Metadata.hasTypeAnnots_absorb {m : Metadata} (h : m.hasTypeAnnots = true)
    (e : MemberEvent) : (m.absorb e).hasTypeAnnots = true := by
  cases e with
  | typeAnnot ref path d visible body =>
    obtain ⟨flag, hflag⟩ := m.hasTypeAnnots_iff.mp h
    refine (Metadata.hasTypeAnnots_iff _).mpr ⟨flag, ?_⟩
    rw [absorb_typeAnnot, toList_typeAnnots_push]
    exact List.append_ne_nil_of_left_ne_nil hflag _
  | annot d visible body => exact h
  | extension x => exact h
  | finish => exact h

namespace ClassDecl

/-- The event takes nothing away from the class: it is not a header, and if it
declares a field or a method, the key is new. -/
def Adds (c : ClassDecl) : ClassEvent → Prop
  | .header _ => False
  | .field head _ => c.fields.contains head.name = false
  | .method head _ => c.methods.contains head.key = false
  | _ => True

/-- **What a class absorbs adds to its features**, as long as it replaces
nothing. -/
theorem hasFeature_absorb {c : ClassDecl} {e : ClassEvent} (he : c.Adds e) {f : Feature}
    (hf : c.hasFeature f = true) : (c.absorb e).hasFeature f = true := by
  cases e with
  | header h => exact absurd he id
  | member e =>
    cases f with
    | typeAnnots =>
      rw [hasFeature_typeAnnots_iff] at hf ⊢
      exact hf.imp_left fun hown => Metadata.hasTypeAnnots_absorb hown e
    | _ => exact hf
  | component head body =>
    rw [absorb_component]
    cases f with
    | typeAnnots =>
      rw [hasFeature_typeAnnots_iff] at hf ⊢
      refine hf.imp_right (Or.imp_left ?_)
      rintro ⟨d, hd, h⟩
      exact ⟨d, List.mem_append_left _ hd, h⟩
    | records => simp [hasFeature, isRecord]
    | _ => exact hf
  | field head body =>
    have hnew : head.name ∉ c.fields.keys := Table.contains_eq_false_iff.mp he
    rw [absorb_field]
    cases f with
    | typeAnnots =>
      rw [hasFeature_typeAnnots_iff] at hf ⊢
      refine hf.imp_right (Or.imp_right (Or.imp_left ?_))
      rintro ⟨f, hf, h⟩
      exact ⟨f, Table.mem_values_insert_of_not_mem hnew _ hf, h⟩
    | _ => exact hf
  | method head body =>
    have hnew : head.key ∉ c.methods.keys := Table.contains_eq_false_iff.mp he
    rw [absorb_method]
    cases f with
    | typeAnnots =>
      rw [hasFeature_typeAnnots_iff] at hf ⊢
      refine hf.imp_right (Or.imp_right (Or.imp_right ?_))
      rintro ⟨m, hm, h⟩
      exact ⟨m, Table.mem_values_insert_of_not_mem hnew _ hm, h⟩
    | methodParameters =>
      obtain ⟨m, hm, hparameters⟩ := List.any_eq_true.mp hf
      exact List.any_eq_true.mpr ⟨m, Table.mem_values_insert_of_not_mem hnew _ hm, hparameters⟩
    | _ => exact hf
  | moduleInfo head body =>
    cases f with
    | modules => rfl
    | _ => exact hf
  | nestHost name =>
    cases f with
    | nesting => rfl
    | _ => exact hf
  | nestMember name =>
    cases f with
    | nesting => simp [hasFeature, isNested, absorb]
    | _ => exact hf
  | permittedSubtype name =>
    cases f with
    | permittedSubtypes => rfl
    | _ => exact hf
  | source file debug => cases f <;> exact hf
  | outerClass o => cases f <;> exact hf
  | innerClass i => cases f <;> exact hf

/-- **Every class has a least tier that accepts it.** It is the highest tier at
which a feature of the class begins, so acceptance at a tier is acceptance at
every later one, and no event lowers it, apart from a header and from a field or
a method that replaces another. -/
theorem least_accepted_tier (c : ClassDecl) :
    (∀ t, c.check t = .ok () ↔ c.requiredTier ≤ t) ∧
    (∀ e, c.Adds e → c.requiredTier ≤ (c.absorb e).requiredTier) ∧
    ∀ s t, s ≤ t → c.check s = .ok () → c.check t = .ok () := by
  refine ⟨c.check_eq_ok_iff, fun e he => ?_, fun s t hst hs => ?_⟩
  · exact requiredTier_le_requiredTier fun f hf => hasFeature_absorb he hf
  · rw [check_eq_ok_iff] at hs ⊢
    exact hs.trans hst

/-- A record class with one plain method. -/
def plainRecord : ClassDecl :=
  { blank {} with
    access := .record
    methods := ⟨[(⟨"m", "()V"⟩, .blank ⟨.empty, "m", "()V", none, []⟩ .inPlace)], .inPlace⟩ }

/-- A second method may carry parameters without a need for a later tier; a
permitted subtype leaves the experimental tier alone. -/
theorem plainRecord_least_accepted_tier :
    plainRecord.requiredTier = .v8 ∧
    plainRecord.Adds (.method ⟨.empty, "m", "(I)V", none, []⟩ [.parameter ⟨none, .empty⟩]) ∧
    plainRecord.Adds (.permittedSubtype "S") ∧
    (plainRecord.absorb (.permittedSubtype "S")).requiredTier = .experimental ∧
    plainRecord.requiredTier ≤ (plainRecord.absorb
      (.method ⟨.empty, "m", "(I)V", none, []⟩ [.parameter ⟨none, .empty⟩])).requiredTier ∧
    plainRecord.requiredTier ≤ (plainRecord.absorb (.permittedSubtype "S")).requiredTier ∧
    plainRecord.check .v8 = .ok () ∧ plainRecord.check .experimental = .ok () := by
  have hmethod : plainRecord.Adds
      (.method ⟨.empty, "m", "(I)V", none, []⟩ [.parameter ⟨none, .empty⟩]) := by
    show plainRecord.methods.contains ⟨"m", "(I)V"⟩ = false
    decide
  have hleast := least_accepted_tier plainRecord
  have haccepts : plainRecord.check .v8 = .ok () := (hleast.1 .v8).mpr (by decide)
  exact ⟨by decide, hmethod, trivial, by decide, hleast.2.1 _ hmethod, hleast.2.1 _ trivial,
    haccepts, hleast.2.2 .v8 .experimental (by decide) haccepts⟩

end ClassDecl

end ClassTree

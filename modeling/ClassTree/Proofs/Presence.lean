/-
# A list read off its history

A list-valued attribute that starts absent may be pushed to, assigned, cleared,
filtered, have entries taken out and be edited in place, in any order
(`ListEdit`). What it lists is what a plain list would (`ListEdit.plain`). Whether
it is present is not read off what it lists but off its history: an entry was
pushed or a list assigned, and the attribute has not been cleared since
(`ListEdit.Filled`). Taking out the last entry changes nothing about that.

A tier check asks three lists for their presence, so it asks for their histories.
For a class that has nothing else to check, the check succeeds at exactly the
tiers that have the feature of each list that was filled
(`ClassDecl.check_after_edits`).

Each law is a step lemma (`AttrList.perform_eq_onList`, `AttrList.isPresent_perform`)
and an induction on the history, whose last edit comes first.

Key definitions: `ListEdit`, `ListEdit.onList`, `ListEdit.Filled`,
`AttrList.perform`, `AttrList.after`, `ClassDecl.Bare`.
-/
import ClassTree.Proofs.CopiedFeatures

namespace ClassTree

/-- One edit of a list. -/
inductive ListEdit (α : Type u)
  | push (x : α)
  | removeAt (i : Nat)
  | retain (keep : Nat → α → Bool)
  | clear
  | assign (xs : List α)
  | rewrite (f : Nat → α → α)

namespace ListEdit

variable {α : Type u}

/-- An edit of a plain list, and what it hands back: the entry that was pushed or
the one that was taken out. -/
def onList (xs : List α) : ListEdit α → Option α × List α
  | .push x => (some x, xs ++ [x])
  | .removeAt i => if h : i < xs.length then (some xs[i], xs.eraseIdx i) else (none, xs)
  | .retain keep => (none, (xs.zipIdx.filter fun e => keep e.2 e.1).map (·.1))
  | .clear => (none, [])
  | .assign ys => (none, ys)
  | .rewrite f => (none, xs.mapIdx f)

/-- The plain list that a history leaves. -/
def plain (h : List (ListEdit α)) : List α := h.foldl (fun xs e => (onList xs e).2) []

/-- The edit makes the list present. -/
def Fills : ListEdit α → Prop
  | .push _ | .assign _ => True
  | .removeAt _ | .retain _ | .clear | .rewrite _ => False

/-- Something was pushed or assigned, and nothing was cleared since. -/
def Filled (h : List (ListEdit α)) : Prop :=
  ∃ before e since, h = before ++ e :: since ∧ e.Fills ∧ ∀ e' ∈ since, e' ≠ .clear

theorem not_filled_nil : ¬ Filled ([] : List (ListEdit α)) := by
  rintro ⟨before, e, since, h, -⟩
  simp at h

/-- One edit more. -/
theorem filled_concat {h : List (ListEdit α)} {e : ListEdit α} :
    Filled (h ++ [e]) ↔ e.Fills ∨ Filled h ∧ e ≠ .clear := by
  constructor
  · rintro ⟨before, e₀, since, heq, hfills, hsince⟩
    -- the edit that fills is the newest one or lies before it
    rcases List.eq_nil_or_concat since with rfl | ⟨since, e', rfl⟩
    · obtain ⟨rfl, hlast⟩ := List.append_inj' heq rfl
      obtain rfl := List.singleton_inj.mp hlast
      exact Or.inl hfills
    · have hsplit : h ++ [e] = (before ++ e₀ :: since) ++ [e'] := by simp [heq]
      obtain ⟨rfl, hlast⟩ := List.append_inj' hsplit rfl
      obtain rfl := List.singleton_inj.mp hlast
      refine Or.inr ⟨⟨before, e₀, since, rfl, hfills, fun e' he' => hsince e' ?_⟩, hsince e ?_⟩
      · simp [he']
      · simp
  · rintro (hfills | ⟨⟨before, e₀, since, rfl, hfills, hsince⟩, hclear⟩)
    · exact ⟨h, e, [], rfl, hfills, fun e' he' => absurd he' List.not_mem_nil⟩
    · refine ⟨before, e₀, since ++ [e], by simp, hfills, fun e' he' => ?_⟩
      rcases List.mem_append.mp he' with he' | he'
      · exact hsince e' he'
      · rwa [List.mem_singleton.mp he']

end ListEdit

namespace AttrList

variable {α : Type u}

/-- Makes one edit, and hands back the entry that was pushed, as it stands in the
list, or the one that was taken out. -/
def perform (l : AttrList α) : ListEdit α → Option α × AttrList α
  | .push x => ((l.push x).toList.getLast?, l.push x)
  | .removeAt i => l.getThenRemoveAt? i
  | .retain keep => (none, l.retain keep)
  | .clear => (none, l.clear)
  | .assign xs => (none, ofList xs)
  | .rewrite f => (none, l.rewrite f)

/-- The list that a history of edits leaves when it starts absent. -/
def after (h : List (ListEdit α)) : AttrList α := h.foldl (fun l e => (l.perform e).2) absent

theorem after_concat (h : List (ListEdit α)) (e : ListEdit α) :
    after (h ++ [e]) = ((after h).perform e).2 := by
  simp [after]

/-- An edit does to the entries what it does to a plain list, and hands back the
same. -/
theorem perform_eq_onList (l : AttrList α) (e : ListEdit α) :
    ((l.perform e).1, (l.perform e).2.toList) = ListEdit.onList l.toList e := by
  cases e with
  | removeAt i =>
    by_cases h : i < l.toList.length
    · simp [perform, ListEdit.onList, getThenRemoveAt?_eq, h]
    · have hlen : l.toList.length ≤ i := Nat.le_of_not_lt h
      simp [perform, ListEdit.onList, getThenRemoveAt?_eq, h, List.eraseIdx_of_length_le hlen]
  | _ => simp [perform, ListEdit.onList]

/-- Pushing and assigning make a list present, clearing makes it absent, and
nothing else has a say. -/
theorem isPresent_perform (l : AttrList α) (e : ListEdit α) :
    (l.perform e).2.isPresent = true ↔ e.Fills ∨ l.isPresent = true ∧ e ≠ .clear := by
  cases e with
  | assign xs => simp [perform, ListEdit.Fills, isPresent, ofList]
  | _ => simp [perform, ListEdit.Fills, getThenRemoveAt?_eq]

theorem toList_after (h : List (ListEdit α)) : (after h).toList = ListEdit.plain h := by
  induction h using List.reverseRecOn with
  | nil => rfl
  | append_singleton h e ih =>
    have hstep : ((after h).perform e).2.toList = (ListEdit.onList (after h).toList e).2 :=
      congrArg Prod.snd (perform_eq_onList (after h) e)
    rw [after_concat, hstep, ih]
    simp [ListEdit.plain]

theorem isPresent_after (h : List (ListEdit α)) :
    (after h).isPresent = true ↔ ListEdit.Filled h := by
  induction h using List.reverseRecOn with
  | nil => exact iff_of_false Bool.false_ne_true ListEdit.not_filled_nil
  | append_singleton h e ih => rw [after_concat, isPresent_perform, ListEdit.filled_concat, ih]

theorem removeAt_of_length_le : ∀ {l : AttrList α} {i : Nat}, l.toList.length ≤ i → l.removeAt i = l
  | ⟨none⟩, _, _ => rfl
  | ⟨some xs⟩, _, h => by
    have hentries := List.eraseIdx_of_length_le (l := xs) h
    simp [removeAt, hentries]

/-- Whatever is written over the entries, one for one, is written by a single
edit. -/
theorem exists_rewrite_eq {g : List α → List α} (hg : ∀ xs, (g xs).length = xs.length) :
    ∀ l : AttrList α, ∃ f, l.rewrite f = ⟨l.entries?.map g⟩
  | ⟨none⟩ => ⟨fun _ x => x, rfl⟩
  | ⟨some xs⟩ => by
    refine ⟨fun i x => (g xs)[i]?.getD x, ?_⟩
    have hentries : xs.mapIdx (fun i x => (g xs)[i]?.getD x) = g xs := by
      refine List.ext_getElem (by simp [hg]) fun i hi hi' => ?_
      simp [hi']
    simp [rewrite, hentries]

end AttrList

/-! ### Checks -/

namespace ClassDecl

/-- Of all that a check asks for, the class can have only the three lists: it has
no record flag, no nest host, no module, no type annotation and no member. -/
structure Bare (c : ClassDecl) : Prop where
  access : c.access.contains .record = false
  nestHost : c.nestHost = none
  moduleInfo : c.moduleInfo = none
  typeAnnots : c.metadata.hasTypeAnnots = false
  fields : c.fields.entries = []
  methods : c.methods.entries = []

/-- The class after each of its three lists went through a history. -/
def withLists (c : ClassDecl) (permitted : List (ListEdit String))
    (components : List (ListEdit ComponentDecl)) (members : List (ListEdit String)) : ClassDecl :=
  { c with
    permittedSubtypes := .after permitted
    components := .after components
    nestMembers := .after members }

theorem Bare.check_eq_ok_iff {c : ClassDecl} (hc : c.Bare) (t : Tier) : c.check t = .ok () ↔
    (c.permittedSubtypes.isPresent = true → Feature.permittedSubtypes.minimumTier ≤ t) ∧
    (c.components.isPresent = true → Feature.records.minimumTier ≤ t) ∧
    (c.nestMembers.isPresent = true → Feature.nesting.minimumTier ≤ t) := by
  have hrecord : c.isRecord = c.components.isPresent := by simp [isRecord, hc.access]
  have hnested : c.isNested = c.nestMembers.isPresent := by simp [isNested, hc.nestHost]
  rw [ClassDecl.check_eq_ok_iff, requiredTier_le_iff]
  constructor
  · intro h
    exact ⟨h .permittedSubtypes, fun hr => h .records (hrecord.trans hr),
      fun hn => h .nesting (hnested.trans hn)⟩
  · rintro ⟨hpermitted, hcomponents, hmembers⟩ f hf
    cases f with
    | permittedSubtypes => exact hpermitted hf
    | records => exact hcomponents (hrecord.symm.trans hf)
    | nesting => exact hmembers (hnested.symm.trans hf)
    | modules => simp [hasFeature, hc.moduleInfo] at hf
    | methodParameters => simp [hasFeature, Table.values, hc.methods] at hf
    | typeAnnots =>
      -- only a component can carry one, and components need a later tier
      rw [hasFeature_typeAnnots_iff] at hf
      simp only [hc.typeAnnots, Bool.false_eq_true, Table.values, hc.fields, hc.methods,
        List.map_nil, List.not_mem_nil, false_and, exists_false, or_false, false_or] at hf
      obtain ⟨d, hd, -⟩ := hf
      have hlater : Feature.typeAnnots.minimumTier ≤ Feature.records.minimumTier := by decide
      exact hlater.trans (hcomponents (AttrList.isPresent_of_mem hd))

/-- **A check asks for histories, not for contents.** -/
theorem check_after_edits {c : ClassDecl} (hc : c.Bare) (permitted : List (ListEdit String))
    (components : List (ListEdit ComponentDecl)) (members : List (ListEdit String)) (t : Tier) :
    (c.withLists permitted components members).check t = .ok () ↔
      (ListEdit.Filled permitted → Feature.permittedSubtypes.minimumTier ≤ t) ∧
      (ListEdit.Filled components → Feature.records.minimumTier ≤ t) ∧
      (ListEdit.Filled members → Feature.nesting.minimumTier ≤ t) := by
  have hbare : (c.withLists permitted components members).Bare :=
    ⟨hc.access, hc.nestHost, hc.moduleInfo, hc.typeAnnots, hc.fields, hc.methods⟩
  rw [hbare.check_eq_ok_iff, ← AttrList.isPresent_after, ← AttrList.isPresent_after,
    ← AttrList.isPresent_after]
  rfl

end ClassDecl

/-- **A list is read off its history.** It lists what a plain list lists after the
same edits, each of which hands back the same, and taking out an entry that is not
there does nothing. Whatever is written in place is among the edits. The list is
present exactly if something was pushed or assigned since it was last cleared, and
on a class that has nothing else to check, a check asks for just that of the three
lists, whatever they list now. -/
theorem AttrList.after_reads_history {α : Type u} (h : List (ListEdit α)) :
    ((after h).toList = ListEdit.plain h ∧
      (∀ e, ((after h).perform e).1 = (ListEdit.onList (ListEdit.plain h) e).1) ∧
      (∀ i, (ListEdit.plain h).length ≤ i → (after h).perform (.removeAt i) = (none, after h)) ∧
      (∀ g : List α → List α, (∀ xs, (g xs).length = xs.length) →
        ∃ f, ((after h).perform (.rewrite f)).2 = ⟨(after h).entries?.map g⟩) ∧
      ((after h).isPresent = true ↔ ListEdit.Filled h)) ∧
    ∀ c : ClassDecl, c.Bare → ∀ permitted components members t,
      (c.withLists permitted components members).check t = .ok () ↔
        (ListEdit.Filled permitted → Feature.permittedSubtypes.minimumTier ≤ t) ∧
        (ListEdit.Filled components → Feature.records.minimumTier ≤ t) ∧
        (ListEdit.Filled members → Feature.nesting.minimumTier ≤ t) := by
  refine ⟨⟨toList_after h, fun e => ?_, fun i hi => ?_, fun g hg => exists_rewrite_eq hg (after h),
    isPresent_after h⟩, fun c hc => ClassDecl.check_after_edits hc⟩
  · rw [← toList_after]
    exact congrArg Prod.fst (perform_eq_onList (after h) e)
  · rw [← toList_after] at hi
    show (after h).getThenRemoveAt? i = _
    rw [getThenRemoveAt?_eq, removeAt_of_length_le hi, List.getElem?_eq_none hi]

namespace ClassDecl

/-- A class with three empty lists: from one the only entry was taken out, one was
assigned empty, and one was cleared. -/
def emptied : ClassDecl :=
  (blank {}).withLists [.push "S", .removeAt 0] [.assign []] [.push "N", .clear]

/-- The first list keeps the class experimental. -/
theorem emptied_reads_history : (blank {}).Bare ∧
    emptied.permittedSubtypes.toList = [] ∧ emptied.components.isEmpty = true ∧
    emptied.nestMembers.toList = [] ∧
    emptied.check .experimental = .ok () ∧ emptied.check .v8 ≠ .ok () := by
  have hbare : (blank {}).Bare := ⟨by decide, rfl, rfl, rfl, rfl, rfl⟩
  have hfilled : ListEdit.Filled [.push "S", .removeAt 0] :=
    ⟨[], .push "S", [.removeAt 0], rfl, trivial, by simp⟩
  have hlaw := AttrList.after_reads_history [ListEdit.push "S", .removeAt 0]
  have hcheck : ∀ t, emptied.check t = .ok () ↔ _ := hlaw.2 (blank {}) hbare _ _ _
  refine ⟨hbare, hlaw.1.1, rfl, rfl, (hcheck .experimental).mpr ?_, fun h => ?_⟩
  · exact ⟨fun _ => by decide, fun _ => by decide, fun _ => by decide⟩
  · exact absurd (((hcheck .v8).mp h).1 hfilled) (by decide)

end ClassDecl

end ClassTree

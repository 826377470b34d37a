/-
# A table read off its timeline

A table that starts empty may be stored into, erased from, cleared, assigned to
and given another policy, in any order (`TableEdit`). What it holds after that is
said of the edits alone, by their moments in the timeline: a key is present
(`TableEdit.Present`) if it was stored after everything that takes it out, and it
holds what was last written under it (`TableEdit.Stored`), where an assignment
writes only while the key is present.

The order is that of the placing times. A key is placed (`TableEdit.Places`) by
storing it while it is absent, and by every storing under the policy that moves
to the end; under the other policy, storing a present key leaves it where it
stands. So the policies at all those moments count, and not the last one.

Each law is a step lemma that compares the table after one more edit with the
timeline one moment longer (`mem_keys_perform` with `present_concat`,
`get?_perform_eq_some_iff` with `stored_concat`), and an induction on the timeline.

Key definitions: `TableEdit`, `Table.perform`, `Table.after`, `TableEdit.moments`,
`TableEdit.Present`, `TableEdit.Stored`, `TableEdit.Places`.
-/
import ClassTree.Proofs.Slots
import Mathlib.Order.Bounds.Basic

namespace ClassTree

/-- One edit of a table. -/
inductive TableEdit (κ : Type u) (ν : Type v)
  | insert (k : κ) (v : ν)
  | erase (k : κ)
  | clear
  | setPolicy (p : ReplacePolicy)
  | assign (k : κ) (v : ν)
  deriving DecidableEq, Repr

/-- What an edit hands back: storing, the value in the slot that was written and
the one that it replaced; erasing, the value that was taken out. -/
inductive TableAnswer (ν : Type v)
  | stored (value previous : Option ν)
  | erased (value : Option ν)
  | assigned (found : Bool)
  | done
  deriving DecidableEq, Repr

namespace Table

variable {κ : Type u} {ν : Type v} [DecidableEq κ]

/-- Makes one edit. An assignment goes to the value that is found under the key;
without one, nothing changes. -/
def perform (t : Table κ ν) : TableEdit κ ν → TableAnswer ν × Table κ ν
  | .insert k v =>
    let (old, stored) := t.getThenInsert? k v
    (.stored ((stored.entry? (t.slot k)).map (·.2)) old, stored)
  | .erase k =>
    let (old, rest) := t.getThenErase? k
    (.erased old, rest)
  | .clear => (.done, t.clear)
  | .setPolicy p => (.done, t.setPolicy p)
  | .assign k v => (.assigned (t.contains k), t.modify k fun _ => v)

/-- The table that a timeline of edits leaves when it starts from nothing. -/
def after (p : ReplacePolicy) (h : List (TableEdit κ ν)) : Table κ ν :=
  h.foldl (fun t e => (t.perform e).2) (empty p)

end Table

namespace TableEdit

variable {κ : Type u} {ν : Type v}

/-! ### Moments -/

/-- The moments of a timeline at which an edit of some kind was made. `P` is asked
of the edit and of the timeline before it. -/
def moments (h : List (TableEdit κ ν)) (P : List (TableEdit κ ν) → TableEdit κ ν → Prop) : Set ℕ :=
  {n | ∃ e, h[n]? = some e ∧ P (h.take n) e}

/-- The edit stores a value under the key. -/
def Inserts (k : κ) (e : TableEdit κ ν) : Prop := ∃ v, e = .insert k v

/-- The edit takes the key out if it is there. -/
def TakesOut (k : κ) (e : TableEdit κ ν) : Prop := e = .erase k ∨ e = .clear

/-- The key was stored after it was last erased and after the last clearing. -/
def Present (h : List (TableEdit κ ν)) (k : κ) : Prop :=
  ∃ n ∈ moments h fun _ e => e.Inserts k, ∀ m ∈ moments h fun _ e => e.TakesOut k, m < n

/-- The policy that an edit brings. -/
def policy? : TableEdit κ ν → Option ReplacePolicy
  | .setPolicy p => some p
  | _ => none

/-- The policy in force after a timeline: the last one given, or the first one. -/
def policyAfter (p : ReplacePolicy) (h : List (TableEdit κ ν)) : ReplacePolicy :=
  (h.filterMap policy?).getLast?.getD p

/-- The edit, made after `before`, writes the value under the key. -/
def Writes (k : κ) (v : ν) (before : List (TableEdit κ ν)) (e : TableEdit κ ν) : Prop :=
  e = .insert k v ∨ e = .assign k v ∧ Present before k

/-- The key is present, and the value is the one last written under it. -/
def Stored (h : List (TableEdit κ ν)) (k : κ) (v : ν) : Prop :=
  Present h k ∧ ∃ n, IsGreatest (moments h fun before e => ∃ w, Writes k w before e) n ∧
    n ∈ moments h (Writes k v)

/-- The edit, made after `before`, gives the key a new place: it stores it while it
is absent, or while replacements move to the end. -/
def Places (p : ReplacePolicy) (k : κ) (before : List (TableEdit κ ν)) (e : TableEdit κ ν) : Prop :=
  e.Inserts k ∧ (¬ Present before k ∨ policyAfter p before = .moveToEnd)

variable {P : List (TableEdit κ ν) → TableEdit κ ν → Prop} {h : List (TableEdit κ ν)}
  {e : TableEdit κ ν} {n : ℕ}

theorem lt_length_of_mem_moments (hn : n ∈ moments h P) : n < h.length := by
  obtain ⟨e, he, -⟩ := hn
  exact (List.getElem?_eq_some_iff.mp he).1

theorem mem_moments_concat :
    n ∈ moments (h ++ [e]) P ↔ n ∈ moments h P ∨ n = h.length ∧ P h e := by
  rcases lt_trichotomy n h.length with hn | rfl | hn
  · have hne : n ≠ h.length := by omega
    simp [moments, List.getElem?_append_left hn, List.take_append_of_le_length hn.le, hne]
  · have hnot : h.length ∉ moments h P :=
      fun hm => absurd (lt_length_of_mem_moments hm) (lt_irrefl _)
    have hnew : h.length ∈ moments (h ++ [e]) P ↔ P h e := by simp [moments]
    simp [hnot, hnew]
  · have hnot : ∀ h' : List (TableEdit κ ν), h'.length ≤ n → n ∉ moments h' P :=
      fun h' hle hm => absurd (lt_length_of_mem_moments hm) (by omega)
    have hne : n ≠ h.length := by omega
    have hlong : (h ++ [e]).length ≤ n := by
      rw [List.length_append, List.length_singleton]
      omega
    simp [hnot h hn.le, hnot (h ++ [e]) hlong, hne]

theorem moments_concat_of_not (hP : ¬ P h e) : moments (h ++ [e]) P = moments h P := by
  ext n
  simp [mem_moments_concat, hP]

/-- What the newest edit does happened last at its moment. -/
theorem isGreatest_moments_concat (hP : P h e) : IsGreatest (moments (h ++ [e]) P) h.length := by
  refine ⟨mem_moments_concat.mpr (Or.inr ⟨rfl, hP⟩), fun n hn => ?_⟩
  rcases mem_moments_concat.mp hn with hn | ⟨rfl, -⟩
  · exact (lt_length_of_mem_moments hn).le
  · exact le_rfl

theorem isGreatest_moments_concat_iff (hP : P h e) :
    IsGreatest (moments (h ++ [e]) P) n ↔ n = h.length :=
  ⟨fun hn => hn.unique (isGreatest_moments_concat hP), fun hn => hn ▸ isGreatest_moments_concat hP⟩

/-! ### One moment more -/

theorem not_present_nil (k : κ) : ¬ Present ([] : List (TableEdit κ ν)) k := by
  rintro ⟨n, hn, -⟩
  exact absurd (lt_length_of_mem_moments hn) (Nat.not_lt_zero n)

theorem Inserts.not_takesOut {k : κ} (he : e.Inserts k) : ¬ e.TakesOut k := by
  obtain ⟨v, rfl⟩ := he
  rintro (he | he) <;> cases he

theorem present_concat {k : κ} :
    Present (h ++ [e]) k ↔ e.Inserts k ∨ Present h k ∧ ¬ e.TakesOut k := by
  constructor
  · rintro ⟨n, hn, hlast⟩
    rcases mem_moments_concat.mp hn with hn | ⟨-, hin⟩
    · refine Or.inr ⟨⟨n, hn, fun m hm => hlast m (mem_moments_concat.mpr (Or.inl hm))⟩,
        fun hout => ?_⟩
      have hlt := hlast h.length (mem_moments_concat.mpr (Or.inr ⟨rfl, hout⟩))
      exact absurd (lt_length_of_mem_moments hn) (by omega)
    · exact Or.inl hin
  · rintro (hin | ⟨⟨n, hn, hlast⟩, hout⟩)
    · refine ⟨h.length, mem_moments_concat.mpr (Or.inr ⟨rfl, hin⟩), fun m hm => ?_⟩
      rcases mem_moments_concat.mp hm with hm | ⟨-, hm⟩
      · exact lt_length_of_mem_moments hm
      · exact absurd hm hin.not_takesOut
    · refine ⟨n, mem_moments_concat.mpr (Or.inl hn), fun m hm => ?_⟩
      rcases mem_moments_concat.mp hm with hm | ⟨-, hm⟩
      · exact hlast m hm
      · exact absurd hm hout

theorem policyAfter_concat (p : ReplacePolicy) (h : List (TableEdit κ ν)) (e : TableEdit κ ν) :
    policyAfter p (h ++ [e]) = e.policy?.getD (policyAfter p h) := by
  unfold policyAfter
  rw [List.filterMap_append]
  cases he : e.policy? <;> simp [he]

theorem Writes.present_concat {k : κ} {v : ν} (hw : Writes k v h e) : Present (h ++ [e]) k := by
  rw [TableEdit.present_concat]
  rcases hw with rfl | ⟨rfl, hk⟩
  · exact Or.inl ⟨v, rfl⟩
  · refine Or.inr ⟨hk, ?_⟩
    rintro (he | he) <;> cases he

theorem stored_concat {k : κ} {v : ν} : Stored (h ++ [e]) k v ↔
    Writes k v h e ∨ Stored h k v ∧ ¬ e.TakesOut k ∧ ¬ ∃ w, Writes k w h e := by
  by_cases hwrite : ∃ w, Writes k w h e
  · -- the newest edit is the last that writes, so it alone decides
    obtain ⟨w, hw⟩ := hwrite
    have hlast : ∀ n, IsGreatest (moments (h ++ [e]) fun before e => ∃ w, Writes k w before e) n ↔
        n = h.length := fun n => isGreatest_moments_concat_iff ⟨w, hw⟩
    have hnot : h.length ∉ moments h (Writes k v) := fun hm =>
      absurd (lt_length_of_mem_moments hm) (lt_irrefl _)
    unfold Stored
    simp only [hlast, exists_eq_left, mem_moments_concat, hnot, false_or, true_and]
    exact ⟨fun hs => Or.inl hs.2, fun hs => hs.elim (fun hv => ⟨hw.present_concat, hv⟩)
      fun hs => absurd ⟨w, hw⟩ hs.2.2⟩
  · have hv : ¬ Writes k v h e := fun hv => hwrite ⟨v, hv⟩
    have hin : ¬ e.Inserts k := fun ⟨w, hw⟩ => hwrite ⟨w, Or.inl hw⟩
    unfold Stored
    rw [moments_concat_of_not hv, moments_concat_of_not hwrite, present_concat]
    simp only [hin, hv, hwrite, false_or, not_false_eq_true, and_true]
    tauto

/-! ### Placing times -/

/-- The keys are listed by their placing times. -/
def InPlacingOrder (p : ReplacePolicy) (h : List (TableEdit κ ν)) (ks : List κ) : Prop :=
  ∃ time : κ → ℕ, (∀ k ∈ ks, IsGreatest (moments h (Places p k)) (time k)) ∧
    ks.Pairwise fun a b => time a < time b

theorem InPlacingOrder.of_sublist {p : ReplacePolicy} {h : List (TableEdit κ ν)}
    {e : TableEdit κ ν} {ks ks' : List κ} (hks : InPlacingOrder p h ks)
    (hnot : ∀ k, ¬ Places p k h e) (hsub : ks'.Sublist ks) : InPlacingOrder p (h ++ [e]) ks' := by
  obtain ⟨time, htime, horder⟩ := hks
  refine ⟨time, fun k hk => ?_, horder.sublist hsub⟩
  rw [moments_concat_of_not (hnot k)]
  exact htime k (hsub.subset hk)

theorem InPlacingOrder.place [DecidableEq κ] {p : ReplacePolicy} {h : List (TableEdit κ ν)}
    {e : TableEdit κ ν} {ks : List κ} {k : κ} (hks : InPlacingOrder p h ks)
    (hplaces : Places p k h e) :
    InPlacingOrder p (h ++ [e]) (ks.filter (· ≠ k) ++ [k]) := by
  obtain ⟨time, htime, horder⟩ := hks
  -- the key gets the newest moment, and no other key is placed by the same edit
  have hothers : ∀ k', k' ≠ k → ¬ Places p k' h e := by
    rintro k' hne ⟨⟨w, hw⟩, -⟩
    obtain ⟨⟨v, rfl⟩, -⟩ := hplaces
    cases hw
    exact hne rfl
  have hold : ∀ k' ∈ ks.filter (· ≠ k), k' ∈ ks ∧ k' ≠ k := by
    intro k' hk'
    simpa using List.mem_filter.mp hk'
  refine ⟨Function.update time k h.length, fun k' hk' => ?_, ?_⟩
  · rcases List.mem_append.mp hk' with hk' | hk'
    · obtain ⟨hmem, hne⟩ := hold k' hk'
      rw [Function.update_of_ne hne, moments_concat_of_not (hothers k' hne)]
      exact htime k' hmem
    · obtain rfl := List.mem_singleton.mp hk'
      rw [Function.update_self]
      exact isGreatest_moments_concat hplaces
  · rw [List.pairwise_append]
    refine ⟨?_, List.pairwise_singleton _ _, fun a ha b hb => ?_⟩
    · refine (horder.sublist List.filter_sublist).imp_of_mem fun ha hb hlt => ?_
      rwa [Function.update_of_ne (hold _ ha).2, Function.update_of_ne (hold _ hb).2]
    · obtain rfl := List.mem_singleton.mp hb
      obtain ⟨hmem, hne⟩ := hold a ha
      rw [Function.update_of_ne hne, Function.update_self]
      exact lt_length_of_mem_moments (htime a hmem).1

end TableEdit

namespace Table

open TableEdit

variable {κ : Type u} {ν : Type v} [DecidableEq κ]

theorem after_concat (p : ReplacePolicy) (h : List (TableEdit κ ν)) (e : TableEdit κ ν) :
    after p (h ++ [e]) = ((after p h).perform e).2 := by
  simp [after]

/-! ### One edit of a table -/

@[simp] theorem perform_insert (t : Table κ ν) (k : κ) (v : ν) :
    t.perform (.insert k v) = (.stored (some v) (t.get? k), t.insert k v) := by
  unfold perform entry?
  simp only [getThenInsert?_eq, getElem?_slot_insert]
  rfl

@[simp] theorem perform_erase (t : Table κ ν) (k : κ) :
    t.perform (.erase k) = (.erased (t.get? k), t.erase k) := by
  simp only [perform, getThenErase?_eq]

theorem keys_erase (t : Table κ ν) (k : κ) : (t.erase k).keys = t.keys.filter (· ≠ k) := by
  simp [keys, erase, drop, List.filter_map, Function.comp_def]

theorem keys_modify (t : Table κ ν) (k : κ) (f : ν → ν) : (t.modify k f).keys = t.keys :=
  keys_update k f t.entries

theorem get?_erase (t : Table κ ν) (k k' : κ) :
    (t.erase k).get? k' = if k' = k then none else t.get? k' := by
  unfold get? erase drop
  rw [find?_filter k' fun k₀ => decide (k₀ ≠ k)]
  by_cases hk : k' = k <;> simp [hk]

theorem find?_update (k k' : κ) (f : ν → ν) : ∀ es : List (κ × ν),
    find? k' (update k f es) = if k' = k then (find? k' es).map f else find? k' es
  | [] => by simp [update, find?]
  | (k₀, v) :: es => by
    have ih := find?_update k k' f es
    by_cases h₀ : k₀ = k
    · by_cases hk : k' = k
      · simp [update, find?, h₀, hk]
      · simp [update, find?, h₀, hk, Ne.symm hk]
    · by_cases hk : k' = k
      · subst hk
        simpa [update, find?, h₀] using ih
      · simp [update, find?, h₀, hk, ih]

theorem get?_modify (t : Table κ ν) (k k' : κ) (f : ν → ν) :
    (t.modify k f).get? k' = if k' = k then (t.get? k').map f else t.get? k' :=
  find?_update k k' f t.entries

theorem get?_eq_none_iff {t : Table κ ν} {k : κ} : t.get? k = none ↔ k ∉ t.keys :=
  find?_eq_none_iff k t.entries

theorem policy_perform (t : Table κ ν) (e : TableEdit κ ν) :
    (t.perform e).2.policy = e.policy?.getD t.policy := by
  cases e with
  | insert k v => simp [policy?]
  | erase k => rw [perform_erase]; rfl
  | _ => rfl

/-- A key is there after an edit that stores it, or if it was there and the edit
does not take it out. -/
theorem mem_keys_perform {t : Table κ ν} {e : TableEdit κ ν} {k : κ} :
    k ∈ (t.perform e).2.keys ↔ e.Inserts k ∨ k ∈ t.keys ∧ ¬ e.TakesOut k := by
  cases e with
  | insert k' v => simp [mem_keys_insert, Inserts, TakesOut, @eq_comm κ k']
  | erase k' => simp [keys_erase, Inserts, TakesOut, @eq_comm κ k']
  | clear => simp [perform, clear, keys, Inserts, TakesOut]
  | setPolicy p => simp [perform, setPolicy, keys, Inserts, TakesOut]
  | assign k' v => simp [perform, keys_modify, Inserts, TakesOut]

/-- A key holds what an edit writes under it, or what it held if the edit neither
takes it out nor writes under it. -/
theorem get?_perform_eq_some_iff {t : Table κ ν} {h : List (TableEdit κ ν)} {e : TableEdit κ ν}
    {k : κ} {v : ν} (hkeys : k ∈ t.keys ↔ Present h k) :
    (t.perform e).2.get? k = some v ↔
      Writes k v h e ∨ t.get? k = some v ∧ ¬ e.TakesOut k ∧ ¬ ∃ w, Writes k w h e := by
  unfold Writes
  simp only [← hkeys]
  cases e with
  | insert k' w =>
    by_cases hk : k' = k
    · simp [get?_insert, TakesOut, hk]
    · simp [get?_insert, TakesOut, hk]
  | erase k' =>
    by_cases hk : k = k'
    · simp [get?_erase, TakesOut, hk]
    · simp [get?_erase, TakesOut, hk, Ne.symm hk]
  | clear => simp [perform, clear, get?, find?, TakesOut]
  | setPolicy p => simp [perform, setPolicy, get?, TakesOut]
  | assign k' w =>
    by_cases hk : k = k'
    · subst hk
      cases hget : t.get? k with
      | none =>
        have hnot : k ∉ t.keys := get?_eq_none_iff.mp hget
        simp [perform, get?_modify, hget, hnot]
      | some old =>
        have hmem : k ∈ t.keys := by
          by_contra hnot
          rw [get?_eq_none_iff.mpr hnot] at hget
          cases hget
        simp [perform, get?_modify, hget, hmem]
    · simp [perform, get?_modify, TakesOut, hk, Ne.symm hk]

/-! ### The table and its timeline -/

theorem policy_after (p : ReplacePolicy) (h : List (TableEdit κ ν)) :
    (after p h).policy = policyAfter p h := by
  induction h using List.reverseRecOn with
  | nil => rfl
  | append_singleton h e ih => rw [after_concat, policy_perform, policyAfter_concat, ih]

theorem mem_keys_after {p : ReplacePolicy} {h : List (TableEdit κ ν)} {k : κ} :
    k ∈ (after p h).keys ↔ Present h k := by
  induction h using List.reverseRecOn with
  | nil => simp [after, keys, not_present_nil]
  | append_singleton h e ih => rw [after_concat, mem_keys_perform, present_concat, ih]

theorem get?_after_eq_some_iff {p : ReplacePolicy} {h : List (TableEdit κ ν)} {k : κ} {v : ν} :
    (after p h).get? k = some v ↔ Stored h k v := by
  induction h using List.reverseRecOn with
  | nil => simp [after, get?, find?, Stored, not_present_nil]
  | append_singleton h e ih =>
    rw [after_concat, get?_perform_eq_some_iff mem_keys_after, stored_concat, ih]

theorem get?_after_eq_none_iff {p : ReplacePolicy} {h : List (TableEdit κ ν)} {k : κ} :
    (after p h).get? k = none ↔ ¬ Present h k := by
  rw [get?_eq_none_iff, mem_keys_after]

/-- An edit that places no key leaves some of the keys, in their order. -/
theorem keys_perform_sublist {p : ReplacePolicy} {h : List (TableEdit κ ν)} {e : TableEdit κ ν}
    (hnot : ∀ k, ¬ Places p k h e) : ((after p h).perform e).2.keys.Sublist (after p h).keys := by
  cases e with
  | insert k v =>
    have hstay : Present h k ∧ policyAfter p h ≠ .moveToEnd := by
      have := hnot k
      unfold Places Inserts at this
      simpa using this
    have hpolicy : (after p h).policy = .inPlace := by
      rw [policy_after]
      cases hp : policyAfter p h with
      | inPlace => rfl
      | moveToEnd => exact absurd hp hstay.2
    rw [perform_insert, keys_insert, hpolicy]
    simp [mem_keys_after.mpr hstay.1]
  | erase k =>
    rw [perform_erase, keys_erase]
    exact List.filter_sublist
  | clear => exact List.nil_sublist _
  | setPolicy p' => exact List.Sublist.refl _
  | assign k v =>
    simp only [perform, keys_modify]
    exact List.Sublist.refl _

/-- A key that is placed comes last, and the others keep their order. -/
theorem keys_perform_of_places {p : ReplacePolicy} {h : List (TableEdit κ ν)} {k : κ}
    {e : TableEdit κ ν} (hplaces : Places p k h e) :
    ((after p h).perform e).2.keys = (after p h).keys.filter (· ≠ k) ++ [k] := by
  obtain ⟨⟨v, rfl⟩, hplace⟩ := hplaces
  rw [perform_insert, keys_insert]
  cases hp : (after p h).policy with
  | moveToEnd => rfl
  | inPlace =>
    have habsent : k ∉ (after p h).keys := by
      rw [mem_keys_after]
      rw [policy_after] at hp
      simpa [hp] using hplace
    have hkeep : (after p h).keys.filter (· ≠ k) = (after p h).keys := by
      rw [List.filter_eq_self]
      intro k' hk'
      have hne : k' ≠ k := fun hk => habsent (hk ▸ hk')
      simpa using hne
    simp only [if_neg habsent, hkeep]

theorem keys_after_inPlacingOrder (p : ReplacePolicy) (h : List (TableEdit κ ν)) :
    InPlacingOrder p h (after p h).keys := by
  induction h using List.reverseRecOn with
  | nil => exact ⟨fun _ => 0, fun k hk => absurd hk List.not_mem_nil, List.Pairwise.nil⟩
  | append_singleton h e ih =>
    rw [after_concat]
    by_cases hplaces : ∃ k, Places p k h e
    · obtain ⟨k, hk⟩ := hplaces
      rw [keys_perform_of_places hk]
      exact ih.place hk
    · have hnot : ∀ k, ¬ Places p k h e := fun k hk => hplaces ⟨k, hk⟩
      exact ih.of_sublist hnot (keys_perform_sublist hnot)

theorem distinct_after (p : ReplacePolicy) (h : List (TableEdit κ ν)) : (after p h).Distinct := by
  obtain ⟨time, -, horder⟩ := keys_after_inPlacingOrder p h
  refine horder.imp fun hlt heq => ?_
  rw [heq] at hlt
  exact lt_irrefl _ hlt

/-- **A table is read off its timeline.** Its keys are distinct and are those that
were stored after they were last taken out, each with what was last written under
it while it was present. The entries stand in the order of their placing times.
Storing hands back what it stored and what the key held before, erasing what the
key held. -/
theorem after_reads_timeline (p : ReplacePolicy) (h : List (TableEdit κ ν)) :
    (after p h).Distinct ∧
    (∀ k, k ∈ (after p h).keys ↔ Present h k) ∧
    (∀ k v, (after p h).get? k = some v ↔ Stored h k v) ∧
    (∃ time : κ → ℕ,
      (∀ k, Present h k → IsGreatest (moments h (Places p k)) (time k)) ∧
      (after p h).entries.Pairwise fun a b => time a.1 < time b.1) ∧
    (∀ k v, ∃ previous, ((after p h).perform (.insert k v)).1 = .stored (some v) previous ∧
      (previous = none ↔ ¬ Present h k) ∧ ∀ w, previous = some w ↔ Stored h k w) ∧
    ∀ k, ∃ value, ((after p h).perform (.erase k)).1 = .erased value ∧
      (value = none ↔ ¬ Present h k) ∧ ∀ w, value = some w ↔ Stored h k w := by
  obtain ⟨time, htime, horder⟩ := keys_after_inPlacingOrder p h
  refine ⟨distinct_after p h, fun k => mem_keys_after, fun k v => get?_after_eq_some_iff,
    ⟨time, fun k hk => htime k (mem_keys_after.mpr hk),
      by simpa [keys, List.pairwise_map] using horder⟩,
    fun k v => ?_, fun k => ?_⟩
  · rw [perform_insert]
    exact ⟨_, rfl, get?_after_eq_none_iff, fun w => get?_after_eq_some_iff⟩
  · rw [perform_erase]
    exact ⟨_, rfl, get?_after_eq_none_iff, fun w => get?_after_eq_some_iff⟩

/-- A timeline in which one key is stored under each of the policies. -/
def switched : List (TableEdit String Nat) :=
  [.insert "a" 1, .insert "b" 2, .insert "a" 3, .setPolicy .moveToEnd, .insert "a" 4,
    .assign "b" 5]

/-- Storing the first key again has moved it only after the switch. -/
theorem switched_reads_timeline : Present switched "a" ∧ Present switched "b" ∧
    ∃ time : String → ℕ, IsGreatest (moments switched (Places .inPlace "a")) (time "a") ∧
      IsGreatest (moments switched (Places .inPlace "b")) (time "b") ∧ time "b" < time "a" := by
  have hentries : (after .inPlace switched).entries = [("b", 5), ("a", 4)] := by decide
  obtain ⟨-, hkeys, -, ⟨time, htime, horder⟩, -⟩ := after_reads_timeline .inPlace switched
  have ha : Present switched "a" := (hkeys "a").mp (by decide)
  have hb : Present switched "b" := (hkeys "b").mp (by decide)
  rw [hentries] at horder
  exact ⟨ha, hb, time, htime "a" ha, htime "b" hb, by simpa using horder⟩

end Table

end ClassTree

/-
# Where entries end up

A table into which entries were stored one after the other is known from its
keys and from what stands under each of them. A key holds what was last stored
under it (`Table.get?_insertAll`). With replacement in place, the old keys keep
their order and the new ones follow by their first occurrence; with replacement
at the end, the old keys that were not written come first and the written ones
follow by their last occurrence (`Table.keys_insertAll_inPlace`,
`Table.keys_insertAll_moveToEnd`).

Two closed forms follow: a table filled from nothing (`Table.insertAll_empty`),
and a table over which another one is laid (`Table.insertAll_entries`).

Key definitions: `ReplacePolicy.order`, `Table.lastUnder`, `Table.ofHistory`,
`Table.overlay`, `AttrList.extend`.
-/
import ClassTree.Proofs.Filling
import Mathlib.Data.List.Dedup
import Mathlib.Data.List.Induction

namespace ClassTree

/-- The order in which a table that was empty lists the keys that were written
in it: by first occurrence, or by last. -/
def ReplacePolicy.order {κ : Type u} [DecidableEq κ] : ReplacePolicy → List κ → List κ
  | .inPlace, ks => ks.eraseDups
  | .moveToEnd, ks => ks.dedup

namespace Table

variable {κ : Type u} {ν : Type v} [DecidableEq κ]

/-! ### What stands under a key -/

/-- What the last of the entries under `k` stores. -/
def lastUnder (k : κ) (es : List (κ × ν)) : Option ν := find? k es.reverse

theorem find?_append (k : κ) : ∀ es es' : List (κ × ν),
    find? k (es ++ es') = (find? k es).or (find? k es')
  | [], _ => rfl
  | (k', v) :: es, es' => by
    by_cases h : k' = k <;> simp [find?, h, find?_append k es es']

theorem lastUnder_append_singleton (k : κ) (es : List (κ × ν)) (e : κ × ν) :
    lastUnder k (es ++ [e]) = if e.1 = k then some e.2 else lastUnder k es := by
  simp [lastUnder, find?]

theorem lastUnder_cons (k : κ) (e : κ × ν) (es : List (κ × ν)) :
    lastUnder k (e :: es) = (lastUnder k es).or (if e.1 = k then some e.2 else none) := by
  simp [lastUnder, find?_append, find?]

theorem find?_eq_none_iff (k : κ) : ∀ es : List (κ × ν), find? k es = none ↔ k ∉ es.map (·.1)
  | [] => by simp [find?]
  | (k', v) :: es => by
    by_cases h : k' = k
    · simp [find?, h]
    · simp [find?, h, Ne.symm h, find?_eq_none_iff k es]

theorem find?_put (k k' : κ) (v : ν) : ∀ es : List (κ × ν),
    find? k' (put k v es) = if k = k' then some v else find? k' es
  | [] => by simp [put, find?]
  | (k₀, v₀) :: es => by
    have ih := find?_put k k' v es
    by_cases h₀ : k₀ = k
    · by_cases h : k = k' <;> simp [put, find?, h₀, h]
    · have hput : put k v ((k₀, v₀) :: es) = (k₀, v₀) :: put k v es := by simp [put, h₀]
      rw [hput, find?, find?, ih]
      by_cases h : k = k'
      · subst h
        simp [h₀]
      · simp [h]

theorem find?_filter (k : κ) (q : κ → Bool) : ∀ es : List (κ × ν),
    find? k (es.filter (q ·.1)) = if q k then find? k es else none
  | [] => by simp [find?]
  | (k', v) :: es => by
    have ih := find?_filter k q es
    by_cases h : k' = k
    · subst h
      cases hq : q k' <;> simp [hq, find?, ih]
    · cases hq : q k' <;> simp [hq, find?, h, ih]

theorem find?_map (k : κ) (f : κ → ν → ν) : ∀ es : List (κ × ν),
    find? k (es.map fun e => (e.1, f e.1 e.2)) = (find? k es).map (f k)
  | [] => rfl
  | (k', v) :: es => by
    by_cases h : k' = k <;> simp [find?, h, find?_map k f es]

theorem contains_eq_false_iff {t : Table κ ν} {k : κ} : t.contains k = false ↔ k ∉ t.keys := by
  unfold contains get?
  rw [Option.isSome_eq_false_iff, Option.isNone_iff_eq_none]
  exact find?_eq_none_iff k t.entries

theorem get?_insert (t : Table κ ν) (k k' : κ) (v : ν) :
    (t.insert k v).get? k' = if k = k' then some v else t.get? k' := by
  unfold get?
  rw [entries_insert]
  cases t.policy with
  | inPlace => exact find?_put k k' v t.entries
  | moveToEnd =>
    simp only [find?_append, drop, find?_filter k' (fun k₀ => decide (k₀ ≠ k))]
    by_cases h : k = k'
    · simp [find?, h]
    · simp [find?, h, Ne.symm h]

/-- A key holds what was last stored under it, or what it held before. -/
theorem get?_insertAll (k : κ) (es : List (κ × ν)) : ∀ t : Table κ ν,
    (t.insertAll es).get? k = (lastUnder k es).or (t.get? k) := by
  induction es with
  | nil => exact fun _ => rfl
  | cons e es ih =>
    intro t
    rw [insertAll_cons, ih, get?_insert, lastUnder_cons, Option.or_assoc]
    by_cases h : e.1 = k <;> simp [h]

/-! ### The order of the keys -/

theorem keys_insert (t : Table κ ν) (k : κ) (v : ν) : (t.insert k v).keys =
    match t.policy with
    | .inPlace => if k ∈ t.keys then t.keys else t.keys ++ [k]
    | .moveToEnd => t.keys.filter (· ≠ k) ++ [k] := by
  unfold keys
  rw [entries_insert]
  cases t.policy with
  | inPlace => exact keys_put k v t.entries
  | moveToEnd => simp [drop, List.filter_map, Function.comp_def]

theorem keys_insertAll_inPlace (es : List (κ × ν)) : ∀ {t : Table κ ν}, t.policy = .inPlace →
    (t.insertAll es).keys = t.keys ++ ((es.map (·.1)).filter (· ∉ t.keys)).eraseDups := by
  induction es with
  | nil => intro t _; simp
  | cons e es ih =>
    intro t hp
    have hkeys := keys_insert t e.1 e.2
    rw [hp] at hkeys
    dsimp only at hkeys
    rw [insertAll_cons, ih (by simpa using hp), hkeys, List.map_cons]
    by_cases hk : e.1 ∈ t.keys
    · simp [hk]
    · -- the new key heads the rest, and its later occurrences count no more
      have hrest : (es.map (·.1)).filter (· ∉ t.keys ++ [e.1]) =
          ((es.map (·.1)).filter (· ∉ t.keys)).filter (fun k => !(k == e.1)) := by
        rw [List.filter_filter]
        refine List.filter_congr fun k _ => ?_
        by_cases h : k = e.1 <;> simp [h]
      rw [if_neg hk, hrest, List.filter_cons_of_pos (by simpa using hk), List.eraseDups_cons,
        List.append_assoc]
      rfl

theorem keys_insertAll_moveToEnd (es : List (κ × ν)) : ∀ {t : Table κ ν}, t.policy = .moveToEnd →
    (t.insertAll es).keys =
      t.keys.filter (· ∉ es.map (·.1)) ++ (es.map (·.1)).dedup := by
  induction es with
  | nil => intro t _; simp
  | cons e es ih =>
    intro t hp
    have hkeys := keys_insert t e.1 e.2
    rw [hp] at hkeys
    dsimp only at hkeys
    have hold : (t.keys.filter (· ≠ e.1)).filter (· ∉ es.map (·.1)) =
        t.keys.filter (· ∉ e.1 :: es.map (·.1)) := by
      rw [List.filter_filter]
      refine List.filter_congr fun k _ => ?_
      by_cases h : k = e.1 <;> simp [h]
    rw [insertAll_cons, ih (by simpa using hp), hkeys, List.map_cons, List.filter_append, hold]
    by_cases hk : e.1 ∈ es.map (·.1)
    · rw [List.dedup_cons_of_mem hk, List.filter_singleton]
      simp [hk]
    · rw [List.dedup_cons_of_notMem hk, List.filter_singleton]
      simp [hk]

/-! ### Closed forms -/

/-- A table without repeated keys is its keys with what stands under them. -/
theorem Distinct.entries_eq {t : Table κ ν} (ht : t.Distinct) :
    t.entries = t.keys.filterMap fun k => (t.get? k).map fun v => (k, v) := by
  suffices hmain : ∀ es : List (κ × ν), (es.map (·.1)).Nodup →
      es = (es.map (·.1)).filterMap fun k => (find? k es).map fun v => (k, v) from hmain _ ht
  intro es
  induction es with
  | nil => intro _; rfl
  | cons e es ih =>
    intro hn
    obtain ⟨hhead, htail⟩ := List.nodup_cons.mp hn
    -- below the head, the whole list answers as its tail does
    have hskip : ∀ k ∈ es.map (·.1), find? k (e :: es) = find? k es := by
      intro k hk
      have hne : e.1 ≠ k := by
        rintro rfl
        exact hhead hk
      simp [find?, hne]
    rw [List.map_cons, List.filterMap_cons_some (b := e) (by simp [find?])]
    congr 1
    rw [List.filterMap_congr fun k hk => by rw [hskip k hk]]
    exact ih htail

/-- The table that a history of writes leaves: each key once, in the order of
the policy, with what was last stored under it. -/
def ofHistory (p : ReplacePolicy) (es : List (κ × ν)) : Table κ ν where
  entries := (p.order (es.map (·.1))).filterMap fun k => (lastUnder k es).map fun v => (k, v)
  policy := p

/-- **A table filled from nothing is read off its history.** -/
theorem insertAll_empty (p : ReplacePolicy) (es : List (κ × ν)) :
    (empty p).insertAll es = ofHistory p es := by
  have hkeys : ((empty p).insertAll es).keys = p.order (es.map (·.1)) := by
    cases p with
    | inPlace =>
      rw [keys_insertAll_inPlace es rfl]
      simp [keys, ReplacePolicy.order]
    | moveToEnd =>
      rw [keys_insertAll_moveToEnd es rfl]
      simp [keys, ReplacePolicy.order]
  have hget : ∀ k, ((empty p).insertAll es).get? k = lastUnder k es := by
    intro k
    rw [get?_insertAll]
    exact Option.or_none
  have hentries := ((distinct_empty p).insertAll es).entries_eq
  simp only [hkeys, hget] at hentries
  have hp := policy_insertAll es (empty p : Table κ ν)
  unfold ofHistory
  rw [← hentries]
  cases h : (empty p).insertAll es with
  | mk entries policy => rw [h] at hp; exact congrArg (Table.mk entries) hp

theorem get?_ofHistory (p : ReplacePolicy) (es : List (κ × ν)) (k : κ) :
    (ofHistory p es).get? k = lastUnder k es := by
  rw [← insertAll_empty, get?_insertAll]
  exact Option.or_none

theorem lastUnder_filterMap {ε : Type w} (stored? : ε → Option (κ × ν)) (k : κ) (es : List ε) :
    lastUnder k (es.filterMap stored?) =
      ((es.filter fun e => (stored? e).map (·.1) = some k).getLast?).bind
        fun e => (stored? e).map (·.2) := by
  induction es using List.reverseRecOn with
  | nil => rfl
  | append_singleton es e ih =>
    rw [List.filterMap_append, List.filter_append]
    cases he : stored? e with
    | none => simpa [he] using ih
    | some x =>
      by_cases hk : x.1 = k
      · simp [he, hk, lastUnder_append_singleton]
      · simpa [he, hk, lastUnder_append_singleton] using ih

/-- Under a key stands what the last event for that key (`isFor`) stores, as
`alone` says that this event does by itself. -/
theorem get?_ofHistory_filterMap {ε : Type w} {stored? : ε → Option (κ × ν)} {k : κ}
    {isFor : ε → Bool} {alone : ε → Option ν}
    (hkey : ∀ e, (stored? e).map (·.1) = some k ↔ isFor e = true)
    (halone : ∀ e, (stored? e).map (·.1) = some k → (stored? e).map (·.2) = alone e)
    (p : ReplacePolicy) (es : List ε) :
    (ofHistory p (es.filterMap stored?)).get? k = ((es.filter isFor).getLast?).bind alone := by
  have hfilter : (es.filter fun e => (stored? e).map (·.1) = some k) = es.filter isFor :=
    List.filter_congr fun e _ => by simp [hkey e]
  rw [get?_ofHistory, lastUnder_filterMap, hfilter]
  cases hlast : (es.filter isFor).getLast? with
  | none => rfl
  | some e =>
    have hmem := List.mem_filter.mp (List.mem_of_getLast? hlast)
    exact halone e ((hkey e).mpr hmem.2)

/-- The table `t` with the entries of `s` laid over it. In place, they take the
slots of their keys and the new ones follow; at the end, all of them follow what
is left of `t`. -/
def overlay (t s : Table κ ν) : Table κ ν where
  entries :=
    match t.policy with
    | .inPlace =>
      t.entries.map (fun e => (e.1, (s.get? e.1).getD e.2)) ++ s.entries.filter (·.1 ∉ t.keys)
    | .moveToEnd => t.entries.filter (·.1 ∉ s.keys) ++ s.entries
  policy := t.policy

theorem ext_get? {s t : Table κ ν} (hs : s.Distinct) (hkeys : s.keys = t.keys)
    (hget : ∀ k, s.get? k = t.get? k) (hp : s.policy = t.policy) : s = t := by
  have ht : t.Distinct := by
    unfold Distinct
    rw [← hkeys]
    exact hs
  have hentries : s.entries = t.entries := by
    rw [hs.entries_eq, ht.entries_eq, hkeys]
    simp only [hget]
  cases s
  cases t
  simp_all

theorem lastUnder_of_nodup (k : κ) {es : List (κ × ν)} (h : (es.map (·.1)).Nodup) :
    lastUnder k es = find? k es := by
  induction es with
  | nil => rfl
  | cons e es ih =>
    obtain ⟨hhead, htail⟩ := List.nodup_cons.mp h
    rw [lastUnder_cons, ih htail]
    by_cases hk : e.1 = k
    · have hnone : find? k es = none := (find?_eq_none_iff k es).mpr (hk ▸ hhead)
      simp [find?, hk, hnone]
    · simp [find?, hk]

theorem eraseDups_of_nodup {ks : List κ} (h : ks.Nodup) : ks.eraseDups = ks := by
  induction ks with
  | nil => rfl
  | cons k ks ih =>
    obtain ⟨hhead, htail⟩ := List.nodup_cons.mp h
    have hkeep : ks.filter (fun k' => !(k' == k)) = ks := by
      rw [List.filter_eq_self]
      intro k' hk'
      have hne : k' ≠ k := fun e => hhead (e ▸ hk')
      simpa using hne
    rw [List.eraseDups_cons, hkeep, ih htail]

theorem keys_insertAll_entries {t s : Table κ ν} (hs : s.Distinct) :
    (t.insertAll s.entries).keys = (t.overlay s).keys := by
  have hnodup : (s.entries.map (·.1)).Nodup := hs
  unfold overlay
  cases hp : t.policy with
  | inPlace =>
    rw [keys_insertAll_inPlace _ hp, eraseDups_of_nodup (hnodup.filter _)]
    simp [keys, List.filter_map, Function.comp_def]
  | moveToEnd =>
    rw [keys_insertAll_moveToEnd _ hp, hnodup.dedup]
    show t.keys.filter (· ∉ s.keys) ++ s.keys =
      (t.entries.filter (·.1 ∉ s.keys) ++ s.entries).map (·.1)
    rw [List.map_append, keys.eq_def t, List.filter_map]
    rfl

theorem get?_overlay (t s : Table κ ν) (k : κ) :
    (t.overlay s).get? k = (s.get? k).or (t.get? k) := by
  unfold overlay get?
  cases t.policy with
  | inPlace =>
    simp only [find?_append, find?_map k fun k v => (find? k s.entries).getD v,
      find?_filter k fun k => decide (k ∉ t.keys)]
    cases ht : find? k t.entries with
    | none =>
      have hk : k ∉ t.keys := (find?_eq_none_iff k t.entries).mp ht
      simp [hk]
    | some v =>
      have hk : k ∈ t.keys := by
        by_contra h
        rw [(find?_eq_none_iff k t.entries).mpr h] at ht
        cases ht
      cases find? k s.entries <;> simp [hk]
  | moveToEnd =>
    simp only [find?_append, find?_filter k fun k => decide (k ∉ s.keys)]
    cases hs : find? k s.entries with
    | none =>
      have hk : k ∉ s.keys := (find?_eq_none_iff k s.entries).mp hs
      simp [hk]
    | some v =>
      have hk : k ∈ s.keys := by
        by_contra h
        rw [(find?_eq_none_iff k s.entries).mpr h] at hs
        cases hs
      simp [hk]

/-- **Storing the entries of a table one after the other lays it over.** -/
theorem insertAll_entries {t s : Table κ ν} (ht : t.Distinct) (hs : s.Distinct) :
    t.insertAll s.entries = t.overlay s := by
  refine ext_get? (ht.insertAll _) (keys_insertAll_entries hs) (fun k => ?_) (by simp [overlay])
  rw [get?_insertAll, get?_overlay, lastUnder_of_nodup k hs]
  rfl

end Table

namespace AttrList

variable {α : Type u}

/-- The attribute with entries added at its end. Without any it stays as it is,
absent or present. -/
def extend (l : AttrList α) : List α → AttrList α
  | [] => l
  | x :: xs => .ofList (l.toList ++ x :: xs)

theorem pushAll_eq_extend (l : AttrList α) (xs : List α) : l.pushAll xs = l.extend xs := by
  induction xs using List.reverseRecOn with
  | nil => rfl
  | append_singleton xs x ih =>
    rw [pushAll_append, pushAll_cons, pushAll_nil]
    cases xs with
    | nil => rfl
    | cons y ys =>
      unfold push
      rw [toList_pushAll, List.append_assoc]
      rfl

end AttrList

end ClassTree

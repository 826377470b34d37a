/-
# Filling tables and lists

What storing many entries one after the other leaves behind. A table whose
new keys are fresh and distinct lists them at its end, whatever its policy
(`Table.insertAll_of_fresh`); a table that ends with as many entries as were
stored in it has seen no key twice (`Table.nodup_of_size_insertAll`).

Filling is associative: entries that first go into a table `s` and then, with
the rest of `s`, into a table `t` leave `t` as if `s` and the entries had gone
into it one after the other (`Table.insertAll_insertAll`). With replacement in
place this needs the keys of `s` to be distinct, since a key that `s` listed
twice would be written in `t` by its second entry; with replacement at the
end it does not. `Table.insertAll_rekeyed` is the form that replays use, where
the key of an entry is read off its value and the value is rebuilt on the way.

Key definitions: `Table.insertAll`, `AttrList.pushAll`.
-/
import ClassTree.AttrList
import ClassTree.Table
import Mathlib.Data.List.Nodup

namespace ClassTree

namespace Table

variable {κ : Type u} {ν : Type v}

@[simp] theorem entries_empty (p : ReplacePolicy) : (empty p : Table κ ν).entries = [] := rfl

@[simp] theorem policy_empty (p : ReplacePolicy) : (empty p : Table κ ν).policy = p := rfl

@[simp] theorem policy_map (f : ν → ν) (t : Table κ ν) : (t.map f).policy = t.policy := rfl

@[simp] theorem keys_map (f : ν → ν) (t : Table κ ν) : (t.map f).keys = t.keys := by
  simp [keys, map, Function.comp_def]

theorem values_eq (t : Table κ ν) : t.values = t.entries.map (·.2) := rfl

theorem distinct_empty (p : ReplacePolicy) : (empty p : Table κ ν).Distinct := List.nodup_nil

theorem Distinct.map {t : Table κ ν} (h : t.Distinct) (f : ν → ν) : (t.map f).Distinct := by
  unfold Distinct
  rw [keys_map]
  exact h

/-! ### Entries that are rebuilt

A replay lists the values of a table; the receiver reads the key off each
value (`key`) and stores what it builds from it (`build`). -/

/-- Every entry stands under the key of its value. -/
def KeyedBy (key : ν → κ) (t : Table κ ν) : Prop := ∀ e ∈ t.entries, e.1 = key e.2

instance [DecidableEq κ] (t : Table κ ν) : Decidable t.Distinct :=
  inferInstanceAs (Decidable t.keys.Nodup)

instance [DecidableEq κ] (key : ν → κ) (t : Table κ ν) : Decidable (t.KeyedBy key) :=
  inferInstanceAs (Decidable (∀ e ∈ t.entries, e.1 = key e.2))

/-- The entries that a receiver makes of listed values. -/
def rekeyed (key : ν → κ) (build : ν → ν) (vs : List ν) : List (κ × ν) :=
  vs.map fun v => (key v, build v)

variable {key : ν → κ} {build : ν → ν}

theorem keyedBy_empty (key : ν → κ) (p : ReplacePolicy) : (empty p).KeyedBy key :=
  fun _ he => absurd he List.not_mem_nil

theorem KeyedBy.map_values {t : Table κ ν} (ht : t.KeyedBy key) : t.values.map key = t.keys := by
  unfold values keys
  rw [List.map_map]
  exact List.map_congr_left fun e he => (ht e he).symm

theorem KeyedBy.rekeyed_values {t : Table κ ν} (ht : t.KeyedBy key) (build : ν → ν) :
    rekeyed key build t.values = (t.map build).entries := by
  simp only [rekeyed, values_eq, map, List.map_map]
  refine List.map_congr_left fun e he => ?_
  simp only [Function.comp_apply, ht e he]

theorem rekeyed_keyed (hkey : ∀ v, key (build v) = key v) (vs : List ν) :
    ∀ e ∈ rekeyed key build vs, e.1 = key e.2 := by
  intro e he
  obtain ⟨v, -, rfl⟩ := List.mem_map.mp he
  exact (hkey v).symm

theorem map_rekeyed (hbuild : ∀ v, build (build v) = build v) (vs : List ν) :
    (rekeyed key build vs).map (fun e => (e.1, build e.2)) = rekeyed key build vs := by
  simp [rekeyed, Function.comp_def, hbuild]

variable [DecidableEq κ]

/-! ### Entry lists -/

theorem map_put (f : ν → ν) (k : κ) (v : ν) : ∀ es : List (κ × ν),
    (put k v es).map (fun e => (e.1, f e.2)) = put k (f v) (es.map fun e => (e.1, f e.2))
  | [] => rfl
  | (k', v') :: rest => by
    by_cases h : k' = k <;> simp [put, h, map_put f k v rest]

theorem map_drop (f : ν → ν) (k : κ) (es : List (κ × ν)) :
    (drop k es).map (fun e => (e.1, f e.2)) = drop k (es.map fun e => (e.1, f e.2)) := by
  simp [drop, List.filter_map, Function.comp_def]

theorem keys_put (k : κ) (v : ν) : ∀ es : List (κ × ν),
    (put k v es).map (·.1) =
      if k ∈ es.map (·.1) then es.map (·.1) else es.map (·.1) ++ [k]
  | [] => rfl
  | (k', v') :: rest => by
    by_cases h : k' = k
    · simp [put, h]
    · have ih := keys_put k v rest
      by_cases hk : k ∈ rest.map (·.1) <;> simp_all [put, Ne.symm h]

theorem mem_put {k : κ} {v : ν} {e : κ × ν} : ∀ {es : List (κ × ν)}, e ∈ put k v es →
    e = (k, v) ∨ e ∈ es
  | [], h => Or.inl (by simpa [put] using h)
  | (k', v') :: rest, h => by
    by_cases hk : k' = k
    · subst hk
      simp only [put, if_true, List.mem_cons] at h ⊢
      rcases h with h | h
      · exact Or.inl h
      · exact Or.inr (Or.inr h)
    · simp only [put, hk, if_false, List.mem_cons] at h ⊢
      rcases h with h | h
      · exact Or.inr (Or.inl h)
      · exact (mem_put h).imp_right Or.inr

theorem put_of_not_mem {k : κ} (v : ν) : ∀ {es : List (κ × ν)}, k ∉ es.map (·.1) →
    put k v es = es ++ [(k, v)]
  | [], _ => rfl
  | (k', v') :: rest, h => by
    simp only [List.map_cons, List.mem_cons, not_or] at h
    simp [put, Ne.symm h.1, put_of_not_mem v h.2]

theorem drop_of_not_mem {k : κ} {es : List (κ × ν)} (h : k ∉ es.map (·.1)) : drop k es = es := by
  unfold drop
  rw [List.filter_eq_self]
  intro e he
  have hne : e.1 ≠ k := fun hk => h (hk ▸ List.mem_map.mpr ⟨e, he, rfl⟩)
  simpa using hne

theorem put_put_self (k : κ) (v w : ν) : ∀ es : List (κ × ν), put k v (put k w es) = put k v es
  | [] => by simp [put]
  | (k', v') :: rest => by
    by_cases h : k' = k <;> simp [put, h, put_put_self k v w rest]

/-- Writing under a key that is present commutes with writing under another:
only a new key could change who comes last. -/
theorem put_comm {k k' : κ} (hne : k ≠ k') (v v' : ν) : ∀ {es : List (κ × ν)},
    k ∈ es.map (·.1) → put k v (put k' v' es) = put k' v' (put k v es)
  | [], h => by simp at h
  | (k₀, v₀) :: rest, h => by
    by_cases h₀ : k₀ = k
    · simp [put, h₀, hne]
    · have hrest : k ∈ rest.map (·.1) := by simpa [Ne.symm h₀] using h
      by_cases h₁ : k₀ = k'
      · simp [put, h₁, Ne.symm hne]
      · simp [put, h₀, h₁, put_comm hne v v' hrest]

theorem drop_append (k : κ) (es es' : List (κ × ν)) : drop k (es ++ es') = drop k es ++ drop k es' :=
  List.filter_append ..

theorem drop_comm (k k' : κ) (es : List (κ × ν)) : drop k (drop k' es) = drop k' (drop k es) := by
  simp only [drop, List.filter_filter]
  exact List.filter_congr fun e _ => Bool.and_comm ..

theorem drop_drop_self (k : κ) (es : List (κ × ν)) : drop k (drop k es) = drop k es := by
  simp [drop, List.filter_filter]

/-! ### One entry -/

theorem entries_insert (t : Table κ ν) (k : κ) (v : ν) : (t.insert k v).entries =
    match t.policy with
    | .inPlace => put k v t.entries
    | .moveToEnd => drop k t.entries ++ [(k, v)] := by
  unfold insert
  cases t.policy <;> rfl

theorem mem_keys_insert {t : Table κ ν} {k k' : κ} {v : ν} :
    k' ∈ (t.insert k v).keys ↔ k' = k ∨ k' ∈ t.keys := by
  unfold keys
  rw [entries_insert]
  cases t.policy with
  | inPlace =>
    simp only [keys_put]
    split <;> rename_i h
    · exact ⟨Or.inr, fun h' => h'.elim (fun e => e ▸ h) id⟩
    · simp [or_comm]
  | moveToEnd =>
    simp only [drop, List.map_append, List.mem_append, List.mem_map, List.mem_filter,
      List.map_cons, List.map_nil, List.mem_singleton]
    constructor
    · rintro (⟨e, he, rfl⟩ | rfl)
      · exact Or.inr ⟨e, he.1, rfl⟩
      · exact Or.inl rfl
    · rintro (rfl | ⟨e, he, rfl⟩)
      · exact Or.inr rfl
      · by_cases hk : e.1 = k
        · exact Or.inr hk
        · exact Or.inl ⟨e, ⟨he, by simpa using hk⟩, rfl⟩

theorem mem_entries_insert {t : Table κ ν} {k : κ} {v : ν} {e : κ × ν}
    (h : e ∈ (t.insert k v).entries) : e = (k, v) ∨ e ∈ t.entries := by
  rw [entries_insert] at h
  cases hp : t.policy with
  | inPlace =>
    rw [hp] at h
    exact mem_put h
  | moveToEnd =>
    rw [hp] at h
    rcases List.mem_append.mp h with h | h
    · exact Or.inr (List.mem_filter.mp h).1
    · exact Or.inl (List.mem_singleton.mp h)

theorem Distinct.insert {t : Table κ ν} (h : t.Distinct) (k : κ) (v : ν) :
    (t.insert k v).Distinct := by
  unfold Distinct keys at *
  rw [entries_insert]
  cases t.policy with
  | inPlace =>
    simp only [keys_put]
    split <;> rename_i hk
    · exact h
    · exact List.Nodup.append h (List.nodup_singleton k) (by simpa using hk)
  | moveToEnd =>
    rw [List.map_append]
    refine List.Nodup.append (h.sublist (List.filter_sublist.map _)) (List.nodup_singleton k) ?_
    intro k' hk' hmem
    obtain ⟨e, he, rfl⟩ := List.mem_map.mp hk'
    exact absurd (List.mem_singleton.mp hmem) (by simpa using (List.mem_filter.mp he).2)

theorem insert_of_not_mem {t : Table κ ν} {k : κ} (h : k ∉ t.keys) (v : ν) :
    t.insert k v = { t with entries := t.entries ++ [(k, v)] } := by
  unfold Table.insert
  cases t.policy with
  | inPlace => rw [put_of_not_mem v h]
  | moveToEnd => rw [drop_of_not_mem h]

theorem map_insert (f : ν → ν) (t : Table κ ν) (k : κ) (v : ν) :
    (t.insert k v).map f = (t.map f).insert k (f v) := by
  unfold Table.insert map
  cases t.policy with
  | inPlace => simp [map_put]
  | moveToEnd => simp [map_drop]

/-! ### Many entries -/

/-- Stores entries one after the other. -/
def insertAll (t : Table κ ν) (es : List (κ × ν)) : Table κ ν :=
  es.foldl (fun t e => t.insert e.1 e.2) t

@[simp] theorem insertAll_nil (t : Table κ ν) : t.insertAll [] = t := rfl

@[simp] theorem insertAll_cons (t : Table κ ν) (e : κ × ν) (es : List (κ × ν)) :
    t.insertAll (e :: es) = (t.insert e.1 e.2).insertAll es := rfl

theorem insertAll_append (t : Table κ ν) (es es' : List (κ × ν)) :
    t.insertAll (es ++ es') = (t.insertAll es).insertAll es' :=
  List.foldl_append

@[simp] theorem policy_insertAll (es : List (κ × ν)) : ∀ t : Table κ ν,
    (t.insertAll es).policy = t.policy := by
  induction es with
  | nil => exact fun _ => rfl
  | cons e es ih => exact fun t => (ih _).trans (policy_insert ..)

theorem Distinct.insertAll {t : Table κ ν} (h : t.Distinct) (es : List (κ × ν)) :
    (t.insertAll es).Distinct := by
  induction es generalizing t with
  | nil => exact h
  | cons e es ih => exact ih (h.insert e.1 e.2)

theorem mem_entries_insertAll {es : List (κ × ν)} {e : κ × ν} : ∀ {t : Table κ ν},
    e ∈ (t.insertAll es).entries → e ∈ t.entries ∨ e ∈ es := by
  induction es with
  | nil => exact Or.inl
  | cons e' es ih =>
    intro t h
    rcases ih h with h | h
    · rcases mem_entries_insert h with rfl | h
      · exact Or.inr List.mem_cons_self
      · exact Or.inl h
    · exact Or.inr (List.mem_cons_of_mem _ h)

theorem map_insertAll (f : ν → ν) (es : List (κ × ν)) : ∀ t : Table κ ν,
    (t.insertAll es).map f = (t.map f).insertAll (es.map fun e => (e.1, f e.2)) := by
  induction es with
  | nil => exact fun _ => rfl
  | cons e es ih =>
    intro t
    rw [insertAll_cons, ih, map_insert]
    rfl

/-- Fresh, distinct keys are listed at the end, in order, under either policy. -/
theorem insertAll_of_fresh {es : List (κ × ν)} : ∀ {t : Table κ ν}, (es.map (·.1)).Nodup →
    (∀ e ∈ es, e.1 ∉ t.keys) → t.insertAll es = { t with entries := t.entries ++ es } := by
  induction es with
  | nil => intro t _ _; simp
  | cons e es ih =>
    intro t hn hf
    obtain ⟨hhead, htail⟩ := List.nodup_cons.mp hn
    have hfresh : ∀ e' ∈ es, e'.1 ∉ (t.insert e.1 e.2).keys := by
      intro e' he' hmem
      rcases mem_keys_insert.mp hmem with hk | hk
      · exact hhead (List.mem_map.mpr ⟨e', he', hk⟩)
      · exact hf e' (List.mem_cons_of_mem _ he') hk
    rw [insertAll_cons, ih htail hfresh, insert_of_not_mem (hf e List.mem_cons_self)]
    simp

/-- A table filled from nothing with distinct keys lists what was stored. -/
theorem insertAll_empty_of_nodup {es : List (κ × ν)} (h : (es.map (·.1)).Nodup)
    (p : ReplacePolicy) : (empty p).insertAll es = ⟨es, p⟩ := by
  rw [insertAll_of_fresh h (fun e _ => List.not_mem_nil)]
  simp [empty]

theorem size_insert_le (t : Table κ ν) (k : κ) (v : ν) : (t.insert k v).size ≤ t.size + 1 := by
  unfold size
  rw [entries_insert]
  cases t.policy with
  | inPlace =>
    have h := congrArg List.length (keys_put k v t.entries)
    split at h <;> simp at h ⊢ <;> omega
  | moveToEnd =>
    have h := List.length_filter_le (fun e : κ × ν => decide (e.1 ≠ k)) t.entries
    simpa [drop] using h

theorem size_insert_of_mem {t : Table κ ν} {k : κ} (h : k ∈ t.keys) (v : ν) :
    (t.insert k v).size ≤ t.size := by
  unfold size
  rw [entries_insert]
  cases t.policy with
  | inPlace =>
    have hk := congrArg List.length (keys_put k v t.entries)
    rw [if_pos (show k ∈ t.entries.map (·.1) from h), List.length_map, List.length_map] at hk
    exact Nat.le_of_eq hk
  | moveToEnd =>
    obtain ⟨e, he, hek⟩ := List.mem_map.mp h
    have hlt : (drop k t.entries).length < t.entries.length :=
      List.length_filter_lt_length_iff_exists.mpr ⟨e, he, by simpa using hek⟩
    simpa using Nat.succ_le_of_lt hlt

theorem size_insertAll_le (es : List (κ × ν)) : ∀ t : Table κ ν,
    (t.insertAll es).size ≤ t.size + es.length := by
  induction es with
  | nil => exact fun _ => Nat.le_refl _
  | cons e es ih =>
    intro t
    have h₁ := ih (t.insert e.1 e.2)
    have h₂ := size_insert_le t e.1 e.2
    rw [insertAll_cons, List.length_cons]
    omega

/-- A table that grew by as many entries as were stored in it has met no key
twice: each of them was new, and they differ. -/
theorem nodup_of_size_insertAll {es : List (κ × ν)} : ∀ {t : Table κ ν},
    t.size + es.length ≤ (t.insertAll es).size →
      (es.map (·.1)).Nodup ∧ ∀ e ∈ es, e.1 ∉ t.keys := by
  induction es with
  | nil => intro t _; simp
  | cons e es ih =>
    intro t h
    rw [insertAll_cons, List.length_cons] at h
    have hgrow := size_insert_le t e.1 e.2
    have hrest := size_insertAll_le es (t.insert e.1 e.2)
    obtain ⟨hn, hf⟩ := ih (t := t.insert e.1 e.2) (by omega)
    have hnew : e.1 ∉ t.keys := fun hk => by
      have := size_insert_of_mem hk e.2
      omega
    have hhead : e.1 ∉ es.map (·.1) := fun hk => by
      obtain ⟨e', he', hek⟩ := List.mem_map.mp hk
      exact hf e' he' (mem_keys_insert.mpr (Or.inl hek))
    refine ⟨List.nodup_cons.mpr ⟨hhead, hn⟩, fun e' he' => ?_⟩
    rcases List.mem_cons.mp he' with rfl | he'
    · exact hnew
    · exact fun hk => hf e' he' (mem_keys_insert.mpr (Or.inr hk))

/-! ### Associativity -/

/-- With replacement in place, a write under a key that is present can be made
before or after writes under other keys. -/
theorem insert_insertAll_comm {t : Table κ ν} {k : κ} (v : ν) {es : List (κ × ν)}
    (hp : t.policy = .inPlace) (hk : k ∈ t.keys) (hes : k ∉ es.map (·.1)) :
    (t.insertAll es).insert k v = (t.insert k v).insertAll es := by
  induction es generalizing t with
  | nil => rfl
  | cons e es ih =>
    simp only [List.map_cons, List.mem_cons, not_or] at hes
    have hstep : (t.insert e.1 e.2).insert k v = (t.insert k v).insert e.1 e.2 := by
      unfold Table.insert
      simp only [hp]
      rw [put_comm hes.1 v e.2 hk]
    rw [insertAll_cons, insertAll_cons,
      ih (by simpa using hp) (mem_keys_insert.mpr (Or.inr hk)) hes.2, hstep]

theorem insertAll_put {k : κ} (v : ν) {es : List (κ × ν)} : ∀ {t : Table κ ν},
    t.policy = .inPlace → (es.map (·.1)).Nodup →
      t.insertAll (put k v es) = (t.insertAll es).insert k v := by
  induction es with
  | nil => intro t _ _; rfl
  | cons e es ih =>
    obtain ⟨k', v'⟩ := e
    intro t hp hn
    obtain ⟨hhead, htail⟩ := List.nodup_cons.mp hn
    by_cases h : k' = k
    · subst h
      have hover : (t.insert k' v').insert k' v = t.insert k' v := by
        unfold Table.insert
        simp only [hp, put_put_self]
      rw [show put k' v ((k', v') :: es) = (k', v) :: es by simp [put], insertAll_cons,
        insertAll_cons, insert_insertAll_comm v (by simpa using hp)
          (mem_keys_insert.mpr (Or.inl rfl)) hhead, hover]
    · rw [show put k v ((k', v') :: es) = (k', v') :: put k v es by simp [put, h], insertAll_cons,
        insertAll_cons, ih (by simpa using hp) htail]

theorem drop_entries_insertAll (k : κ) (es : List (κ × ν)) : ∀ {t : Table κ ν},
    t.policy = .moveToEnd →
      drop k (t.insertAll (drop k es)).entries = drop k (t.insertAll es).entries := by
  suffices hmain : ∀ (es : List (κ × ν)) {t s : Table κ ν}, t.policy = .moveToEnd →
      s.policy = .moveToEnd → drop k t.entries = drop k s.entries →
        drop k (t.insertAll (drop k es)).entries = drop k (s.insertAll es).entries from
    fun {t} ht => hmain es ht ht rfl
  intro es
  induction es with
  | nil => intro t s _ _ h; exact h
  | cons e es ih =>
    intro t s ht hs h
    by_cases hk : e.1 = k
    · have hskip : drop k (e :: es) = drop k es := by simp [drop, hk]
      rw [hskip, insertAll_cons]
      refine ih ht (by simpa using hs) ?_
      rw [entries_insert, hs, drop_append, hk, drop_drop_self, h]
      simp [drop]
    · have hkeep : drop k (e :: es) = e :: drop k es := by simp [drop, hk]
      rw [hkeep, insertAll_cons, insertAll_cons]
      refine ih (by simpa using ht) (by simpa using hs) ?_
      rw [entries_insert, entries_insert, ht, hs]
      simp only [drop_append]
      rw [drop_comm k, drop_comm k, h]

/-- One entry may be stored in `t` after all of `s`, or in `s` before. -/
theorem insertAll_insert {t s : Table κ ν} (hp : t.policy = s.policy) (hs : s.Distinct)
    (k : κ) (v : ν) : t.insertAll (s.insert k v).entries = (t.insertAll s.entries).insert k v := by
  rw [entries_insert]
  cases hq : s.policy with
  | inPlace => exact insertAll_put v (hp.trans hq) hs
  | moveToEnd =>
    have ht : t.policy = .moveToEnd := hp.trans hq
    simp only [insertAll_append, insertAll_cons, insertAll_nil]
    unfold Table.insert
    simp only [policy_insertAll, ht]
    rw [drop_entries_insertAll k s.entries ht]

/-- **Filling is associative.** -/
theorem insertAll_insertAll {t s : Table κ ν} (hp : t.policy = s.policy) (hs : s.Distinct)
    (es : List (κ × ν)) :
    t.insertAll (s.insertAll es).entries = (t.insertAll s.entries).insertAll es := by
  induction es generalizing s with
  | nil => rfl
  | cons e es ih =>
    rw [insertAll_cons, insertAll_cons, ih (by simpa using hp) (hs.insert e.1 e.2),
      insertAll_insert hp hs]

/-! ### Replayed entries -/

theorem KeyedBy.insertAll {t : Table κ ν} (ht : t.KeyedBy key) {es : List (κ × ν)}
    (hes : ∀ e ∈ es, e.1 = key e.2) : (t.insertAll es).KeyedBy key := by
  intro e he
  rcases mem_entries_insertAll he with he | he
  · exact ht e he
  · exact hes e he

/-- Filling through a replay is associative: what `s` takes from a replay and
replays to `t` reaches `t` as if it had been replayed there after `s`. -/
theorem insertAll_rekeyed {t s : Table κ ν} (hp : t.policy = s.policy) (hs : s.Distinct)
    (hsk : s.KeyedBy key) (hkey : ∀ v, key (build v) = key v)
    (hbuild : ∀ v, build (build v) = build v) (vs : List ν) :
    t.insertAll (rekeyed key build (s.insertAll (rekeyed key build vs)).values) =
      (t.insertAll (rekeyed key build s.values)).insertAll (rekeyed key build vs) := by
  have hown := hsk.insertAll (rekeyed_keyed hkey vs)
  rw [hown.rekeyed_values, hsk.rekeyed_values, map_insertAll, map_rekeyed hbuild,
    insertAll_insertAll (by simpa using hp) (hs.map build)]

end Table

namespace AttrList

variable {α : Type u}

/-- Appends entries one after the other. -/
def pushAll (l : AttrList α) (xs : List α) : AttrList α := xs.foldl push l

@[simp] theorem pushAll_nil (l : AttrList α) : l.pushAll [] = l := rfl

@[simp] theorem pushAll_cons (l : AttrList α) (x : α) (xs : List α) :
    l.pushAll (x :: xs) = (l.push x).pushAll xs := rfl

theorem pushAll_append (l : AttrList α) (xs ys : List α) :
    l.pushAll (xs ++ ys) = (l.pushAll xs).pushAll ys :=
  List.foldl_append

@[simp] theorem toList_pushAll (xs : List α) : ∀ l : AttrList α,
    (l.pushAll xs).toList = l.toList ++ xs := by
  induction xs with
  | nil => exact fun l => (List.append_nil _).symm
  | cons x xs ih =>
    intro l
    rw [pushAll_cons, ih, toList_push, List.append_assoc]
    rfl

/-- A replayed list is appended as a whole, whether or not it was filled in
two parts: an absent list and an empty one append nothing. -/
theorem pushAll_map_pushAll {f : α → α} (hf : ∀ x, f (f x) = f x) (l m : AttrList α) (xs : List α) :
    l.pushAll ((m.pushAll (xs.map f)).toList.map f) =
      (l.pushAll (m.toList.map f)).pushAll (xs.map f) := by
  rw [toList_pushAll, List.map_append, pushAll_append, List.map_map]
  have hff : f ∘ f = f := funext hf
  rw [hff]

end AttrList

end ClassTree

/-
# Keyed tables that remember their order

A table lists its entries in order and carries the policy that says where an
entry lands when its key is already present: over the old entry, or at the
end after the old entry is taken out. Two tables are equal (`==`) when they
list equal entries in the same order; the policy is not part of the value.

The operations work on the plain entry list, so that each law is one
induction on it. Writing a value and editing the slot just written
(`modify_insert`) needs no assumption on the keys.

Key definitions: `ReplacePolicy`, `Table`, `Table.insert`,
`Table.getThenInsert?`, `Table.erase`, `Table.getThenErase?`,
`Table.modify`, `Table.get?`, `Table.Distinct`.
-/
namespace ClassTree

/-- Where an entry lands when it replaces one with the same key. -/
inductive ReplacePolicy
  | inPlace
  | moveToEnd
  deriving DecidableEq, Repr

namespace ReplacePolicy

/-- Both policies, the usual one first. -/
def all : List ReplacePolicy := [inPlace, moveToEnd]

/-- The policy as configurations write it. -/
def key : ReplacePolicy → String
  | inPlace => "in_place"
  | moveToEnd => "move_to_end"

/-- The policy that a configuration key names. -/
def ofKey? (s : String) : Option ReplacePolicy := all.find? (·.key == s)

end ReplacePolicy

/-- Entries in order, and where a replacement of one of them lands. -/
structure Table (κ : Type u) (ν : Type v) where
  entries : List (κ × ν)
  policy : ReplacePolicy

namespace Table

variable {κ : Type u} {ν : Type v}

/-- A table without entries. -/
def empty (policy : ReplacePolicy) : Table κ ν := ⟨[], policy⟩

/-- The keys, in order. -/
def keys (t : Table κ ν) : List κ := t.entries.map (·.1)

/-- The values, in order. -/
def values (t : Table κ ν) : List ν := t.entries.map (·.2)

def size (t : Table κ ν) : Nat := t.entries.length

def isEmpty (t : Table κ ν) : Bool := t.entries.isEmpty

/-- No key occurs twice. Every operation on a key keeps this. -/
def Distinct (t : Table κ ν) : Prop := t.keys.Nodup

/-- The entry at a position. -/
def entry? (t : Table κ ν) (i : Nat) : Option (κ × ν) := t.entries[i]?

/-- Changes where later replacements land; the present order stays. -/
def setPolicy (t : Table κ ν) (policy : ReplacePolicy) : Table κ ν := { t with policy }

/-- Drops all entries; the policy stays. -/
def clear (t : Table κ ν) : Table κ ν := { t with entries := [] }

/-- Edits every value where it stands. -/
def map (f : ν → ν) (t : Table κ ν) : Table κ ν :=
  { t with entries := t.entries.map fun e => (e.1, f e.2) }

/-- Moves every value to the next slot and the last one to the first; the keys
stay where they are. -/
def rotateValues (t : Table κ ν) : Table κ ν :=
  { t with entries := t.keys.zip (t.values.getLast?.toList ++ t.values.dropLast) }

instance [BEq κ] [BEq ν] : BEq (Table κ ν) := ⟨fun s t => s.entries == t.entries⟩

variable [DecidableEq κ]

/-! ### Entry lists

A key is looked up at its first occurrence. -/

/-- The value under `k`. -/
def find? (k : κ) : List (κ × ν) → Option ν
  | [] => none
  | (k', v) :: rest => if k' = k then some v else find? k rest

/-- Writes `v` under `k`: over the value already there, or as a new last entry. -/
def put (k : κ) (v : ν) : List (κ × ν) → List (κ × ν)
  | [] => [(k, v)]
  | (k', v') :: rest => if k' = k then (k', v) :: rest else (k', v') :: put k v rest

/-- Writes `v` under `k` as `put` does, and hands back the value that it writes
over. -/
def getThenPut? (k : κ) (v : ν) : List (κ × ν) → Option ν × List (κ × ν)
  | [] => (none, [(k, v)])
  | (k', v') :: rest =>
    if k' = k then (some v', (k', v) :: rest)
    else
      let (old, rest) := getThenPut? k v rest
      (old, (k', v') :: rest)

/-- Takes out what is stored under `k`; the order of the rest stays. -/
def drop (k : κ) (es : List (κ × ν)) : List (κ × ν) := es.filter (·.1 ≠ k)

/-- Takes out what is stored under `k` as `drop` does, and hands back the value. -/
def getThenDrop? (k : κ) : List (κ × ν) → Option ν × List (κ × ν)
  | [] => (none, [])
  | (k', v) :: rest =>
    let (old, rest) := getThenDrop? k rest
    if k' = k then (some v, rest) else (old, (k', v) :: rest)

/-- Edits the value under `k` where it stands. -/
def update (k : κ) (f : ν → ν) : List (κ × ν) → List (κ × ν)
  | [] => []
  | (k', v) :: rest => if k' = k then (k', f v) :: rest else (k', v) :: update k f rest

theorem getThenPut?_eq (k : κ) (v : ν) :
    ∀ es : List (κ × ν), getThenPut? k v es = (find? k es, put k v es)
  | [] => rfl
  | (k', v') :: rest => by
    by_cases h : k' = k <;> simp [getThenPut?, find?, put, h, getThenPut?_eq k v rest]

theorem getThenDrop?_eq (k : κ) :
    ∀ es : List (κ × ν), getThenDrop? k es = (find? k es, drop k es)
  | [] => rfl
  | (k', v) :: rest => by
    by_cases h : k' = k <;> simp [getThenDrop?, find?, drop, h, getThenDrop?_eq k rest]

theorem update_put (k : κ) (v : ν) (f : ν → ν) :
    ∀ es : List (κ × ν), update k f (put k v es) = put k (f v) es
  | [] => by simp [put, update]
  | (k', v') :: rest => by
    by_cases h : k' = k <;> simp [put, update, h, update_put k v f rest]

theorem update_append_of_find?_eq_none (k : κ) (v : ν) (f : ν → ν) :
    ∀ es : List (κ × ν), find? k es = none → update k f (es ++ [(k, v)]) = es ++ [(k, f v)]
  | [], _ => by simp [update]
  | (k', v') :: rest, h => by
    by_cases hk : k' = k
    · simp [find?, hk] at h
    · simp only [find?, hk, if_false] at h
      simp [update, hk, update_append_of_find?_eq_none k v f rest h]

theorem find?_drop_self (k : κ) : ∀ es : List (κ × ν), find? k (drop k es) = none
  | [] => rfl
  | (k', v) :: rest => by
    have ih := find?_drop_self k rest
    by_cases h : k' = k <;> simp_all [drop, find?]

/-! ### Tables -/

/-- The value stored under a key. -/
def get? (t : Table κ ν) (k : κ) : Option ν := find? k t.entries

def contains (t : Table κ ν) (k : κ) : Bool := (t.get? k).isSome

/-- Stores a value under a key, over or after the entry it replaces as the
table's policy says. -/
def insert (t : Table κ ν) (k : κ) (v : ν) : Table κ ν :=
  match t.policy with
  | .inPlace => { t with entries := put k v t.entries }
  | .moveToEnd => { t with entries := drop k t.entries ++ [(k, v)] }

/-- Stores a value under a key as `insert` does, and hands back the value that
it replaces. -/
def getThenInsert? (t : Table κ ν) (k : κ) (v : ν) : Option ν × Table κ ν :=
  match t.policy with
  | .inPlace =>
    let (old, entries) := getThenPut? k v t.entries
    (old, { t with entries })
  | .moveToEnd => (t.get? k, { t with entries := drop k t.entries ++ [(k, v)] })

/-- Takes the entry under a key out; the order of the rest stays. -/
def erase (t : Table κ ν) (k : κ) : Table κ ν := { t with entries := drop k t.entries }

/-- Takes the entry under a key out as `erase` does, and hands back its value. -/
def getThenErase? (t : Table κ ν) (k : κ) : Option ν × Table κ ν :=
  let (old, entries) := getThenDrop? k t.entries
  (old, { t with entries })

/-- Edits the value under a key where it stands; without the key, nothing. -/
def modify (t : Table κ ν) (k : κ) (f : ν → ν) : Table κ ν :=
  { t with entries := update k f t.entries }

@[simp] theorem policy_insert (t : Table κ ν) (k : κ) (v : ν) :
    (t.insert k v).policy = t.policy := by
  unfold insert; split <;> rfl

/-- Whatever the policy, the value that is replaced is the one under the key. -/
theorem getThenInsert?_eq (t : Table κ ν) (k : κ) (v : ν) :
    t.getThenInsert? k v = (t.get? k, t.insert k v) := by
  unfold getThenInsert? insert
  cases t.policy with
  | inPlace => simp only [getThenPut?_eq, get?]
  | moveToEnd => rfl

theorem getThenErase?_eq (t : Table κ ν) (k : κ) :
    t.getThenErase? k = (t.get? k, t.erase k) := by
  simp only [getThenErase?, getThenDrop?_eq]
  rfl

@[simp] theorem policy_modify (t : Table κ ν) (k : κ) (f : ν → ν) :
    (t.modify k f).policy = t.policy := rfl

/-- Storing a blank value and then editing it in its slot stores the edited
value: nothing of what stood under the key before is left. -/
theorem modify_insert (t : Table κ ν) (k : κ) (v : ν) (f : ν → ν) :
    (t.insert k v).modify k f = t.insert k (f v) := by
  unfold insert modify
  cases t.policy
  · simp [update_put]
  · simp [update_append_of_find?_eq_none k v f _ (find?_drop_self k t.entries)]

end Table

end ClassTree

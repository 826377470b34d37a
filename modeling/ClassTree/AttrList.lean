/-
# List-valued attributes

A list-valued attribute of a class is absent until its first entry is added.
Once present it stays present, even when its last entry is taken out, and
only `clear` makes it absent again. Contents and presence are separate: two
attributes are equal (`==`) when they list the same entries, present or not,
while a tier check asks for presence.

Key definitions: `AttrList`, `AttrList.toList`, `AttrList.isPresent`,
`AttrList.push`, `AttrList.removeAt`, `AttrList.getThenRemoveAt?`,
`AttrList.rewrite`, `AttrList.retain`, `AttrList.clear`.
-/
namespace ClassTree

/-- A list that may be absent as a whole. -/
structure AttrList (α : Type u) where
  entries? : Option (List α)

namespace AttrList

variable {α : Type u}

/-- The attribute that is not there. -/
def absent : AttrList α := ⟨none⟩

/-- A present attribute with the given entries, even with none. -/
def ofList (xs : List α) : AttrList α := ⟨some xs⟩

/-- The entries; an absent attribute has none. -/
def toList (l : AttrList α) : List α := l.entries?.getD []

def isPresent (l : AttrList α) : Bool := l.entries?.isSome

def isEmpty (l : AttrList α) : Bool := l.toList.isEmpty

def size (l : AttrList α) : Nat := l.toList.length

/-- Appends an entry; the attribute is present afterwards. -/
def push (l : AttrList α) (x : α) : AttrList α := ⟨some (l.toList ++ [x])⟩

/-- Edits every entry where it stands. -/
def map (f : α → α) (l : AttrList α) : AttrList α := ⟨l.entries?.map (·.map f)⟩

/-- Edits the entry at a position; without such an entry, nothing. -/
def modifyAt (l : AttrList α) (i : Nat) (f : α → α) : AttrList α :=
  ⟨l.entries?.map (·.modify i f)⟩

/-- Edits the last entry. -/
def modifyLast (l : AttrList α) (f : α → α) : AttrList α := l.modifyAt (l.size - 1) f

/-- Takes out the entry at a position; without such an entry, nothing. -/
def removeAt (l : AttrList α) (i : Nat) : AttrList α := ⟨l.entries?.map (·.eraseIdx i)⟩

/-- Takes out the entry at a position as `removeAt` does, and hands it back. -/
def getThenRemoveAt? (l : AttrList α) (i : Nat) : Option α × AttrList α :=
  match l.entries? with
  | none => (none, l)
  | some xs => if h : i < xs.length then (some xs[i], ⟨some (xs.eraseIdx i)⟩) else (none, l)

/-- Writes over every entry where it stands, by its position and what it was. -/
def rewrite (f : Nat → α → α) (l : AttrList α) : AttrList α := ⟨l.entries?.map (·.mapIdx f)⟩

/-- Keeps the entries that `keep` accepts at their positions. -/
def retain (keep : Nat → α → Bool) (l : AttrList α) : AttrList α :=
  ⟨l.entries?.map fun xs => (xs.zipIdx.filter fun e => keep e.2 e.1).map (·.1)⟩

/-- Makes the attribute absent again. -/
def clear (_ : AttrList α) : AttrList α := absent

/-- Exchanges the first entry and the last one. -/
def swapEnds (l : AttrList α) : AttrList α :=
  ⟨l.entries?.map fun
    | x :: y :: rest => (y :: rest).getLast (by simp) :: ((y :: rest).dropLast ++ [x])
    | xs => xs⟩

instance [BEq α] : BEq (AttrList α) := ⟨fun l m => l.toList == m.toList⟩

@[simp] theorem toList_absent : (absent : AttrList α).toList = [] := rfl

@[simp] theorem toList_ofList (xs : List α) : (ofList xs).toList = xs := rfl

@[simp] theorem toList_push (l : AttrList α) (x : α) : (l.push x).toList = l.toList ++ [x] := rfl

@[simp] theorem isPresent_push (l : AttrList α) (x : α) : (l.push x).isPresent = true := rfl

@[simp] theorem toList_map (f : α → α) : ∀ l : AttrList α, (l.map f).toList = l.toList.map f
  | ⟨none⟩ => rfl
  | ⟨some _⟩ => rfl

@[simp] theorem isPresent_map (f : α → α) (l : AttrList α) : (l.map f).isPresent = l.isPresent :=
  Option.isSome_map

@[simp] theorem toList_removeAt (i : Nat) :
    ∀ l : AttrList α, (l.removeAt i).toList = l.toList.eraseIdx i
  | ⟨none⟩ => rfl
  | ⟨some _⟩ => rfl

@[simp] theorem isPresent_removeAt (l : AttrList α) (i : Nat) :
    (l.removeAt i).isPresent = l.isPresent :=
  Option.isSome_map

theorem getThenRemoveAt?_eq (i : Nat) :
    ∀ l : AttrList α, l.getThenRemoveAt? i = (l.toList[i]?, l.removeAt i)
  | ⟨none⟩ => rfl
  | ⟨some xs⟩ => by
    by_cases h : i < xs.length
    · simp [getThenRemoveAt?, removeAt, toList, h]
    · have hlen : xs.length ≤ i := Nat.le_of_not_lt h
      simp [getThenRemoveAt?, removeAt, toList, h, List.eraseIdx_of_length_le hlen]

@[simp] theorem toList_rewrite (f : Nat → α → α) :
    ∀ l : AttrList α, (l.rewrite f).toList = l.toList.mapIdx f
  | ⟨none⟩ => rfl
  | ⟨some _⟩ => rfl

@[simp] theorem isPresent_rewrite (f : Nat → α → α) (l : AttrList α) :
    (l.rewrite f).isPresent = l.isPresent :=
  Option.isSome_map

@[simp] theorem toList_retain (keep : Nat → α → Bool) : ∀ l : AttrList α,
    (l.retain keep).toList = (l.toList.zipIdx.filter fun e => keep e.2 e.1).map (·.1)
  | ⟨none⟩ => rfl
  | ⟨some _⟩ => rfl

@[simp] theorem isPresent_retain (keep : Nat → α → Bool) (l : AttrList α) :
    (l.retain keep).isPresent = l.isPresent :=
  Option.isSome_map

@[simp] theorem toList_clear (l : AttrList α) : l.clear.toList = [] := rfl

@[simp] theorem isPresent_clear (l : AttrList α) : l.clear.isPresent = false := rfl

/-- Appending a blank entry and then editing it appends the edited entry. -/
theorem modifyLast_push (l : AttrList α) (x : α) (f : α → α) :
    (l.push x).modifyLast f = l.push (f x) := by
  have h : ((l.toList ++ [x]).modify l.toList.length f) = l.toList ++ [f x] := by
    induction l.toList with
    | nil => rfl
    | cons y ys ih => simpa using ih
  simpa [modifyLast, modifyAt, push, size, toList] using h

end AttrList

end ClassTree

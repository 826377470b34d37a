/-
# Editing a class

A class changes in two ways. Events build it, as far as they go and in any
order. Between them it can be edited directly: finished annotations, fields and
methods are stored or taken out, and a field or a method that is found under its
key is built further in its slot. `ClassEdit` is either, and `ClassDecl.applyAll`
runs a sequence of them.

What may stand in events is said of the values that they hand over, at any depth
(`ClassEvent.EveryValue`). What the events build of them is known from how single
values are put together (`ElementValue.Builds`). What a table can hold after an
edit is said once for all tables: `Table.Holds` fixes how entries are keyed and
what is true of their values, and each operation on a key keeps it.

Key definitions: `Table.Holds`, `PartEdit`, `ClassEdit`, `ClassDecl.apply`,
`ClassDecl.applyAll`, `ElementEvent.EveryValue`, `ClassEvent.EveryValue`,
`ElementValue.Builds`.
-/
import ClassTree.Proofs.Absorption

namespace ClassTree

/-! ### Tables -/

namespace Table

variable {κ : Type u} {ν : Type v}

/-- No key is listed twice, every entry stands under the key of its value, and
every value has the property. -/
structure Holds (key : ν → κ) (Q : ν → Prop) (t : Table κ ν) : Prop where
  distinct : t.Distinct
  keyed : t.KeyedBy key
  values : ∀ v ∈ t.values, Q v

variable {key : ν → κ} {Q : ν → Prop}

theorem holds_empty (key : ν → κ) (Q : ν → Prop) (p : ReplacePolicy) : (empty p).Holds key Q :=
  ⟨distinct_empty p, keyedBy_empty key p, fun _ hv => absurd hv List.not_mem_nil⟩

theorem Holds.value {t : Table κ ν} (h : t.Holds key Q) {e : κ × ν} (he : e ∈ t.entries) : Q e.2 :=
  h.values e.2 (List.mem_map.mpr ⟨e, he, rfl⟩)

/-- Entry by entry, a table holds what it holds. -/
theorem holds_of_entries {t : Table κ ν} (hd : t.Distinct)
    (he : ∀ e ∈ t.entries, e.1 = key e.2 ∧ Q e.2) : t.Holds key Q where
  distinct := hd
  keyed := fun e hmem => (he e hmem).1
  values := List.forall_mem_map.mpr fun e hmem => (he e hmem).2

theorem Holds.map {t : Table κ ν} (h : t.Holds key Q) {f : ν → ν} (hkey : ∀ v, key (f v) = key v)
    (hQ : ∀ v, Q v → Q (f v)) (p : ReplacePolicy) : ((t.map f).setPolicy p).Holds key Q := by
  refine holds_of_entries (h.distinct.map f) fun e he => ?_
  obtain ⟨e', he', rfl⟩ := List.mem_map.mp he
  exact ⟨(h.keyed e' he').trans (hkey e'.2).symm, hQ e'.2 (h.value he')⟩

variable [DecidableEq κ]

theorem Holds.insert {t : Table κ ν} (h : t.Holds key Q) {k : κ} {v : ν} (hk : k = key v)
    (hv : Q v) : (t.insert k v).Holds key Q := by
  refine holds_of_entries (h.distinct.insert k v) fun e he => ?_
  rcases mem_entries_insert he with rfl | he
  · exact ⟨hk, hv⟩
  · exact ⟨h.keyed e he, h.value he⟩

theorem Holds.erase {t : Table κ ν} (h : t.Holds key Q) (k : κ) : (t.erase k).Holds key Q := by
  have hsub : (t.erase k).entries.Sublist t.entries := List.filter_sublist
  refine holds_of_entries (h.distinct.sublist (hsub.map _)) fun e he => ?_
  exact ⟨h.keyed e (hsub.subset he), h.value (hsub.subset he)⟩

theorem keys_update (k : κ) (f : ν → ν) : ∀ es : List (κ × ν),
    (update k f es).map (·.1) = es.map (·.1)
  | [] => rfl
  | (k', v) :: es => by
    by_cases h : k' = k <;> simp [update, h, keys_update k f es]

theorem mem_update {k : κ} {f : ν → ν} {e : κ × ν} : ∀ {es : List (κ × ν)}, e ∈ update k f es →
    e ∈ es ∨ ∃ v, (k, v) ∈ es ∧ e = (k, f v)
  | [], h => Or.inl h
  | (k', v) :: es, h => by
    by_cases hk : k' = k
    · subst hk
      rw [update, if_pos rfl] at h
      rcases List.mem_cons.mp h with rfl | h
      · exact Or.inr ⟨v, List.mem_cons_self, rfl⟩
      · exact Or.inl (List.mem_cons_of_mem _ h)
    · rw [update, if_neg hk] at h
      rcases List.mem_cons.mp h with rfl | h
      · exact Or.inl List.mem_cons_self
      · rcases mem_update h with h | ⟨w, hw, rfl⟩
        · exact Or.inl (List.mem_cons_of_mem _ h)
        · exact Or.inr ⟨w, List.mem_cons_of_mem _ hw, rfl⟩

theorem Holds.modify {t : Table κ ν} (h : t.Holds key Q) (k : κ) {f : ν → ν}
    (hkey : ∀ v, key (f v) = key v) (hQ : ∀ v, Q v → Q (f v)) : (t.modify k f).Holds key Q := by
  have hdistinct : (t.modify k f).Distinct := by
    unfold Distinct keys Table.modify
    rw [keys_update]
    exact h.distinct
  refine holds_of_entries hdistinct fun e he => ?_
  rcases mem_update he with he | ⟨v, hv, rfl⟩
  · exact ⟨h.keyed e he, h.value he⟩
  · exact ⟨(h.keyed (k, v) hv).trans (hkey v).symm, hQ v (h.value hv)⟩

end Table

/-! ### Edits -/

/-- One edit of a field or a method: an event of its construction, or a finished
annotation that is stored or taken out. -/
inductive PartEdit (ε : Type)
  | event (e : ε)
  | insertAnnot (a : Annot)
  | removeAnnot (descriptor : String)

/-- The field after an edit. -/
def FieldDecl.apply (f : FieldDecl) : PartEdit MemberEvent → FieldDecl
  | .event e => f.absorb e
  | .insertAnnot a => { f with metadata := f.metadata.insertAnnot a }
  | .removeAnnot d => { f with metadata := f.metadata.removeAnnot d }

/-- The method after an edit. -/
def MethodDecl.apply (m : MethodDecl) : PartEdit MethodEvent → MethodDecl
  | .event e => m.absorb e
  | .insertAnnot a => { m with metadata := m.metadata.insertAnnot a }
  | .removeAnnot d => { m with metadata := m.metadata.removeAnnot d }

/-- One edit of a class. A field or a method is edited where it stands, if there
is one under the key. -/
inductive ClassEdit
  | event (e : ClassEvent)
  | insertAnnot (a : Annot)
  | removeAnnot (descriptor : String)
  | insertField (f : FieldDecl)
  | removeField (name : String)
  | editField (name : String) (edit : PartEdit MemberEvent)
  | insertMethod (m : MethodDecl)
  | removeMethod (key : MethodKey)
  | editMethod (key : MethodKey) (edit : PartEdit MethodEvent)

namespace ClassDecl

/-- The class after an edit. -/
def apply (c : ClassDecl) : ClassEdit → ClassDecl
  | .event e => c.absorb e
  | .insertAnnot a => c.insertAnnot a
  | .removeAnnot d => c.removeAnnot d
  | .insertField f => c.insertField f
  | .removeField name => c.removeField name
  | .editField name edit => { c with fields := c.fields.modify name (·.apply edit) }
  | .insertMethod m => c.insertMethod m
  | .removeMethod key => c.removeMethod key
  | .editMethod key edit => { c with methods := c.methods.modify key (·.apply edit) }

/-- The class after a sequence of edits. -/
def applyAll (c : ClassDecl) (edits : List ClassEdit) : ClassDecl := edits.foldl apply c

end ClassDecl

/-! ### The values of events -/

mutual

/-- The property holds of the value that an event hands over, or of those that
the events of its interior hand over. -/
def ElementEvent.EveryValue (P : ElementValue → Prop) : ElementEvent → Prop
  | .value _ v => P v
  | .annot _ _ body => ElementEvent.EveryValueAll P body
  | .array _ body => ElementEvent.EveryValueAll P body
  | .enum _ _ _ => True
  | .finish => True

/-- The property holds of the values that the events hand over. -/
def ElementEvent.EveryValueAll (P : ElementValue → Prop) : List ElementEvent → Prop
  | [] => True
  | e :: es => ElementEvent.EveryValue P e ∧ ElementEvent.EveryValueAll P es

end

/-- In a place of policy `p`, values with the property `P` are put together to
values with the property `Q`. -/
structure ElementValue.Builds (p : ReplacePolicy) (P Q : ElementValue → Prop) : Prop where
  value : ∀ v, P v → Q v
  enum : ∀ d c, Q (.enum d c)
  annot : ∀ d es, (∀ e ∈ es, Q e.2) → Q (.annot ⟨d, false, (Table.empty p).insertAll es⟩)
  array : ∀ vs, (∀ v ∈ vs, Q v) → Q (.array ⟨vs, p⟩)

section

variable {p : ReplacePolicy} {P Q : ElementValue → Prop}

mutual

/-- Whatever an event opens is built from nothing, so the element that it sets
depends on the values that it hands over alone. -/
theorem ElementValue.Builds.element? (h : ElementValue.Builds p P Q) : ∀ e : ElementEvent,
    e.EveryValue P → ∀ x ∈ e.element? p, Q x.2
  | .value name v, he, x, hx => by
    cases hx
    rw [ElementEvent.EveryValue] at he
    exact h.value v he
  | .enum name d c, _, x, hx => by
    cases hx
    exact h.enum d c
  | .annot name d body, he, x, hx => by
    cases hx
    rw [ElementEvent.EveryValue] at he
    rw [Annot.absorbAll_eq]
    exact h.annot d _ (ElementValue.Builds.elements h body he)
  | .array name body, he, x, hx => by
    cases hx
    rw [ElementEvent.EveryValue] at he
    have hitems := ElementValue.Builds.elements h body he
    rw [ValueArray.absorbAll_eq]
    refine h.array _ fun v hv => ?_
    obtain ⟨x, hx, rfl⟩ := List.mem_map.mp hv
    exact hitems x hx
  | .finish, _, x, hx => by cases hx

theorem ElementValue.Builds.elements (h : ElementValue.Builds p P Q) : ∀ es : List ElementEvent,
    ElementEvent.EveryValueAll P es → ∀ x ∈ es.filterMap (ElementEvent.element? p), Q x.2
  | [], _, x, hx => by cases hx
  | e :: es, hes, x, hx => by
    rw [ElementEvent.EveryValueAll] at hes
    obtain ⟨e', he', hx'⟩ := List.mem_filterMap.mp hx
    rcases List.mem_cons.mp he' with heq | he'
    · rw [heq] at hx'
      exact ElementValue.Builds.element? h e hes.1 x hx'
    · exact ElementValue.Builds.elements h es hes.2 x (List.mem_filterMap.mpr ⟨e', he', hx'⟩)

end

end

/-- The property holds of the values in the interior of a member event. -/
def MemberEvent.EveryValue (P : ElementValue → Prop) : MemberEvent → Prop
  | .annot _ _ body => ElementEvent.EveryValueAll P body
  | .typeAnnot _ _ _ _ body => ElementEvent.EveryValueAll P body
  | .extension _ => True
  | .finish => True

/-- The property holds of the values in the interior of a method event. -/
def MethodEvent.EveryValue (P : ElementValue → Prop) : MethodEvent → Prop
  | .member e => e.EveryValue P
  | .annotDefault body => ElementEvent.EveryValueAll P body
  | .parameter _ => True
  | .code _ => True

/-- The property holds of the values in the interior of a class event. -/
def ClassEvent.EveryValue (P : ElementValue → Prop) : ClassEvent → Prop
  | .member e => e.EveryValue P
  | .component _ body => ∀ e ∈ body, e.EveryValue P
  | .field _ body => ∀ e ∈ body, e.EveryValue P
  | .method _ body => ∀ e ∈ body, e.EveryValue P
  | _ => True

end ClassTree

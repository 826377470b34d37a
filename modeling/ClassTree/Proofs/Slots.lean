/-
# Openings and their slots

An opening stores a blank entity and hands it out by its position, and everything
inside is built there. The position is the policy's (`Table.slot`): in its old
place, or at the end after the old entry went and the later ones moved up. A
position out of range, or an entry of another kind there, would leave the opening
without its interior, and a wrong one would write over a neighbour.

The strict absorption (`ClassDecl.absorb?` and its parts) works by positions and
fails at the first one that does not hold what was just stored. It never fails,
at any depth and in any state, and it ends as absorption does
(`ClassDecl.absorb?_eq`): editing in the slot is storing the finished entity
(`Table.insertWith?_eq`). So an opening changes the entity that it names and
nothing else, and that entity is built from the opening, its interior and a
policy alone (`ClassDecl.Opened`).

Key definitions: `Table.slot`, `Table.insertWith?`, `pushWith?`, `Annot.absorb?`,
`ClassDecl.absorb?`, `Table.Rewritten`, `ClassDecl.Opened`.
-/
import ClassTree.Proofs.Absorption
import ClassTree.Proofs.Policies

namespace ClassTree

/-! ### Slots of a table -/

namespace Table

variable {κ : Type u} {ν : Type v} [DecidableEq κ]

/-- The position that the policy gives to an entry stored under a key: that of
the key, which is the next free one if the key is new, or the one behind all
other entries. -/
def slot (t : Table κ ν) (k : κ) : Nat :=
  match t.policy with
  | .inPlace => t.keys.idxOf k
  | .moveToEnd => (drop k t.entries).length

/-- Stores a value and hands it out by its position to an edit, which may fail. -/
def insertWith? (t : Table κ ν) (k : κ) (v : ν) (edit : ν → Option ν) : Option (Table κ ν) :=
  let stored := t.insert k v
  stored.entries[t.slot k]?.bind fun e =>
    (edit e.2).map fun w => { stored with entries := stored.entries.set (t.slot k) (e.1, w) }

theorem getElem?_put (k : κ) (v : ν) : ∀ es : List (κ × ν),
    (put k v es)[(es.map (·.1)).idxOf k]? = some (k, v)
  | [] => rfl
  | (k', v') :: es => by
    rw [List.map_cons, List.idxOf_cons]
    by_cases h : k' = k
    · simp [put, h]
    · have hkey : (k' == k) = false := beq_eq_false_iff_ne.mpr h
      simp [put, h, hkey, getElem?_put k v es]

theorem set_put (k : κ) (v w : ν) : ∀ es : List (κ × ν),
    (put k v es).set ((es.map (·.1)).idxOf k) (k, w) = put k w es
  | [] => rfl
  | (k', v') :: es => by
    rw [List.map_cons, List.idxOf_cons]
    by_cases h : k' = k
    · simp [put, h]
    · have hkey : (k' == k) = false := beq_eq_false_iff_ne.mpr h
      simp [put, h, hkey, set_put k v w es]

/-- The slot holds what was just stored. -/
theorem getElem?_slot_insert (t : Table κ ν) (k : κ) (v : ν) :
    (t.insert k v).entries[t.slot k]? = some (k, v) := by
  unfold slot
  rw [entries_insert]
  cases t.policy with
  | inPlace => exact getElem?_put k v t.entries
  | moveToEnd => exact List.getElem?_concat_length

/-- The entries behind the old one have moved up. -/
example : (⟨[("a", 1), ("b", 2), ("c", 3)], .moveToEnd⟩ : Table String Nat).slot "a" = 2 := by
  decide

/-- Writing at the slot is storing. -/
theorem set_slot_insert (t : Table κ ν) (k : κ) (v w : ν) :
    (t.insert k v).entries.set (t.slot k) (k, w) = (t.insert k w).entries := by
  unfold slot
  rw [entries_insert, entries_insert]
  cases t.policy with
  | inPlace => exact set_put k v w t.entries
  | moveToEnd => simp

/-- **Editing a stored value in its slot is storing the edited one,** and the
slot is always there. -/
theorem insertWith?_eq (t : Table κ ν) (k : κ) (v : ν) (edit : ν → Option ν) :
    t.insertWith? k v edit = (edit v).map (t.insert k) := by
  have hpolicy : ∀ w, (⟨(t.insert k w).entries, (t.insert k v).policy⟩ : Table κ ν) =
      t.insert k w := fun w => by rw [policy_insert, ← t.policy_insert k w]
  unfold insertWith?
  simp only [getElem?_slot_insert, Option.bind_some, set_slot_insert, hpolicy]

/-- One entry of a table was written, and nothing else: it stands where the
policy puts its key, and the other entries keep their values and their order. -/
structure Rewritten (t : Table κ ν) (k : κ) (v : ν) (t' : Table κ ν) : Prop where
  policy : t'.policy = t.policy
  keys : t'.keys = t.policy.place k t.keys
  value : t'.get? k = some v
  others : drop k t'.entries = drop k t.entries

theorem drop_cons (k : κ) (e : κ × ν) (es : List (κ × ν)) :
    drop k (e :: es) = if e.1 = k then drop k es else e :: drop k es := by
  by_cases h : e.1 = k <;> simp [drop, h]

theorem drop_put_self (k : κ) (v : ν) : ∀ es : List (κ × ν), drop k (put k v es) = drop k es
  | [] => by simp [put, drop]
  | (k', v') :: es => by
    by_cases h : k' = k
    · simp [put, drop_cons, h]
    · simp [put, drop_cons, h, drop_put_self k v es]

theorem rewritten_insert (t : Table κ ν) (k : κ) (v : ν) : t.Rewritten k v (t.insert k v) where
  policy := t.policy_insert k v
  keys := keys_insert_eq_place rfl k v
  value := by rw [get?_insert, if_pos rfl]
  others := by
    rw [entries_insert]
    cases t.policy with
    | inPlace => exact drop_put_self k v t.entries
    | moveToEnd =>
      rw [drop_append, drop_drop_self]
      simp [drop]

end Table

/-! ### Slots of a list -/

/-- Appends an entry and hands it out by its position to an edit, which may
fail. -/
def pushWith? {α : Type u} (xs : List α) (x : α) (edit : α → Option α) : Option (List α) :=
  (xs ++ [x])[xs.length]?.bind fun y => (edit y).map fun z => (xs ++ [x]).set xs.length z

theorem pushWith?_eq {α : Type u} (xs : List α) (x : α) (edit : α → Option α) :
    pushWith? xs x edit = (edit x).map fun z => xs ++ [z] := by
  unfold pushWith?
  rw [List.getElem?_concat_length, Option.bind_some]
  simp

/-! ### Strict absorption

An opening whose slot is not there, or does not hold the kind of entity that was
stored, fails, and with it everything around it. -/

mutual

/-- The annotation after an event, by slots. -/
def Annot.absorb? (a : Annot) : ElementEvent → Option Annot
  | .value name v => some (a.store name v)
  | .enum name d c => some (a.store name (.enum d c))
  | .annot name d body =>
    (a.elements.insertWith? name (.annot (Annot.blank d false a.elements.policy)) fun
      | .annot inner => (Annot.absorbAll? inner body).map .annot
      | _ => none).map fun elements => { a with elements }
  | .array name body =>
    (a.elements.insertWith? name (.array (ValueArray.blank a.elements.policy)) fun
      | .array inner => (ValueArray.absorbAll? inner body).map .array
      | _ => none).map fun elements => { a with elements }
  | .finish => some a

/-- The annotation after a sequence of events, by slots. -/
def Annot.absorbAll? (a : Annot) : List ElementEvent → Option Annot
  | [] => some a
  | e :: es => (Annot.absorb? a e).bind fun b => Annot.absorbAll? b es

/-- The array after an event, by slots. -/
def ValueArray.absorb? (r : ValueArray) : ElementEvent → Option ValueArray
  | .value _ v => some (r.push v)
  | .enum _ d c => some (r.push (.enum d c))
  | .annot _ d body =>
    (pushWith? r.items (.annot (Annot.blank d false r.policy)) fun
      | .annot inner => (Annot.absorbAll? inner body).map .annot
      | _ => none).map fun items => { r with items }
  | .array _ body =>
    (pushWith? r.items (.array (ValueArray.blank r.policy)) fun
      | .array inner => (ValueArray.absorbAll? inner body).map .array
      | _ => none).map fun items => { r with items }
  | .finish => some r

/-- The array after a sequence of events, by slots. -/
def ValueArray.absorbAll? (r : ValueArray) : List ElementEvent → Option ValueArray
  | [] => some r
  | e :: es => (ValueArray.absorb? r e).bind fun s => ValueArray.absorbAll? s es

end

mutual

/-- A nested entity is found in its slot, and it is of the kind that was stored. -/
theorem Annot.absorb?_eq : ∀ (a : Annot) (e : ElementEvent),
    Annot.absorb? a e = some (Annot.absorb a e)
  | a, .value name v => rfl
  | a, .enum name d c => rfl
  | a, .annot name d body => by
    rw [Annot.absorb?, Table.insertWith?_eq, Annot.absorb_annot]
    simp only [Annot.absorbAll?_eq]
    rfl
  | a, .array name body => by
    rw [Annot.absorb?, Table.insertWith?_eq, Annot.absorb_array]
    simp only [ValueArray.absorbAll?_eq]
    rfl
  | a, .finish => rfl

theorem Annot.absorbAll?_eq : ∀ (a : Annot) (es : List ElementEvent),
    Annot.absorbAll? a es = some (Annot.absorbAll a es)
  | a, [] => rfl
  | a, e :: es => by
    rw [Annot.absorbAll?, Annot.absorb?_eq a e, Option.bind_some, Annot.absorbAll?_eq _ es]
    rfl

theorem ValueArray.absorb?_eq : ∀ (r : ValueArray) (e : ElementEvent),
    ValueArray.absorb? r e = some (ValueArray.absorb r e)
  | r, .value _ v => rfl
  | r, .enum _ d c => rfl
  | r, .annot name d body => by
    rw [ValueArray.absorb?, pushWith?_eq, ValueArray.absorb_annot]
    simp only [Annot.absorbAll?_eq]
    rfl
  | r, .array name body => by
    rw [ValueArray.absorb?, pushWith?_eq, ValueArray.absorb_array]
    simp only [ValueArray.absorbAll?_eq]
    rfl
  | r, .finish => rfl

theorem ValueArray.absorbAll?_eq : ∀ (r : ValueArray) (es : List ElementEvent),
    ValueArray.absorbAll? r es = some (ValueArray.absorbAll r es)
  | r, [] => rfl
  | r, e :: es => by
    rw [ValueArray.absorbAll?, ValueArray.absorb?_eq r e, Option.bind_some,
      ValueArray.absorbAll?_eq _ es]
    rfl

end

/-- Steps that all succeed add up to a run that succeeds. -/
theorem foldlM_eq_some {σ : Type u} {ε : Type v} {step? : σ → ε → Option σ} {step : σ → ε → σ}
    (h : ∀ s e, step? s e = some (step s e)) (s : σ) (es : List ε) :
    es.foldlM step? s = some (es.foldl step s) := by
  have hpure : step? = fun s e => pure (step s e) := funext fun s => funext fun e => h s e
  rw [hpure]
  exact List.foldlM_pure

namespace Metadata

/-- The metadata after an event, by slots. -/
def absorb? (m : Metadata) : MemberEvent → Option Metadata
  | .annot d visible body =>
    (m.annots.insertWith? d (Annot.blank d visible m.policy) fun a => Annot.absorbAll? a body).map
      fun annots => { m with annots }
  | .typeAnnot ref path d visible body =>
    (pushWith? (m.typeAnnots visible).toList ⟨ref, path, Annot.blank d visible m.policy⟩ fun a =>
      (Annot.absorbAll? a.annot body).map fun annot => { a with annot }).map
        fun as => m.modifyTypeAnnots visible fun _ => .ofList as
  | .extension x => some { m with extensions := m.extensions.push x }
  | .finish => some m

theorem absorb?_eq (m : Metadata) (e : MemberEvent) : m.absorb? e = some (m.absorb e) := by
  cases e with
  | annot d visible body =>
    rw [absorb?, Table.insertWith?_eq, Annot.absorbAll?_eq, absorb_annot]
    rfl
  | typeAnnot ref path d visible body =>
    rw [absorb?, pushWith?_eq, Annot.absorbAll?_eq, absorb_typeAnnot]
    cases visible <;> rfl
  | extension x => rfl
  | finish => rfl

end Metadata

namespace ComponentDecl

/-- The component after a sequence of events, by slots. -/
def absorbAll? (c : ComponentDecl) (es : List MemberEvent) : Option ComponentDecl :=
  es.foldlM (fun c e => (c.metadata.absorb? e).map fun metadata => { c with metadata }) c

theorem absorbAll?_eq (c : ComponentDecl) (es : List MemberEvent) :
    c.absorbAll? es = some (c.absorbAll es) := by
  refine foldlM_eq_some (fun c e => ?_) c es
  rw [Metadata.absorb?_eq]
  rfl

end ComponentDecl

namespace FieldDecl

/-- The field after a sequence of events, by slots. -/
def absorbAll? (f : FieldDecl) (es : List MemberEvent) : Option FieldDecl :=
  es.foldlM (fun f e => (f.metadata.absorb? e).map fun metadata => { f with metadata }) f

theorem absorbAll?_eq (f : FieldDecl) (es : List MemberEvent) :
    f.absorbAll? es = some (f.absorbAll es) := by
  refine foldlM_eq_some (fun f e => ?_) f es
  rw [Metadata.absorb?_eq]
  rfl

end FieldDecl

namespace MethodDecl

/-- The method after an event, by slots. -/
def absorb? (m : MethodDecl) : MethodEvent → Option MethodDecl
  | .member e => (m.metadata.absorb? e).map fun metadata => { m with metadata }
  | .parameter p => some { m with parameters := m.parameters.push p }
  | .annotDefault body =>
    (ValueArray.absorbAll? (ValueArray.blank m.metadata.policy) body).map
      fun r => { m with annotDefault := some r }
  | .code c => some { m with code := some c }

/-- The method after a sequence of events, by slots. -/
def absorbAll? (m : MethodDecl) (es : List MethodEvent) : Option MethodDecl := es.foldlM absorb? m

theorem absorb?_eq (m : MethodDecl) (e : MethodEvent) : m.absorb? e = some (m.absorb e) := by
  cases e with
  | member e =>
    rw [absorb?, Metadata.absorb?_eq]
    rfl
  | parameter p => rfl
  | annotDefault body =>
    rw [absorb?, ValueArray.absorbAll?_eq]
    rfl
  | code c => rfl

theorem absorbAll?_eq (m : MethodDecl) (es : List MethodEvent) :
    m.absorbAll? es = some (m.absorbAll es) :=
  foldlM_eq_some absorb?_eq m es

end MethodDecl

namespace ClassDecl

/-- The class after an event, by slots. -/
def absorb? (c : ClassDecl) : ClassEvent → Option ClassDecl
  | .member e => (c.metadata.absorb? e).map fun metadata => { c with metadata }
  | .component head body =>
    (pushWith? c.components.toList (ComponentDecl.blank head c.policy) (·.absorbAll? body)).map
      fun ds => { c with components := .ofList ds }
  | .field head body =>
    (c.fields.insertWith? head.name (FieldDecl.blank head c.policy) (·.absorbAll? body)).map
      fun fields => { c with fields }
  | .method head body =>
    (c.methods.insertWith? head.key (MethodDecl.blank head c.policy) (·.absorbAll? body)).map
      fun methods => { c with methods }
  -- a module is the only one of its class, and the others open nothing
  | e => some (c.absorb e)

/-- **Absorption by slots never fails,** and it ends as absorption does. -/
theorem absorb?_eq (c : ClassDecl) (e : ClassEvent) : c.absorb? e = some (c.absorb e) := by
  cases e with
  | member e =>
    rw [absorb?, Metadata.absorb?_eq]
    rfl
  | component head body =>
    rw [absorb?, pushWith?_eq, ComponentDecl.absorbAll?_eq, absorb_component]
    rfl
  | field head body =>
    rw [absorb?, Table.insertWith?_eq, FieldDecl.absorbAll?_eq, absorb_field]
    rfl
  | method head body =>
    rw [absorb?, Table.insertWith?_eq, MethodDecl.absorbAll?_eq, absorb_method]
    rfl
  | _ => rfl

/-! ### What an opening changes -/

/-- The class after an opening is the class before, but for the one entity that
the opening names. A field, a method and an annotation are written under their
key, a type annotation and a component are appended to their list, and the module
is replaced. What is written is built from nothing by the events of the interior. -/
def Opened (c : ClassDecl) (e : ClassEvent) (c' : ClassDecl) : Prop :=
  match e with
  | .field head body =>
    ∃ fields, c' = { c with fields } ∧
      c.fields.Rewritten head.name ((FieldDecl.blank head c.policy).absorbAll body) fields
  | .method head body =>
    ∃ methods, c' = { c with methods } ∧
      c.methods.Rewritten head.key ((MethodDecl.blank head c.policy).absorbAll body) methods
  | .member (.annot d visible body) =>
    ∃ annots, c' = { c with metadata := { c.metadata with annots } } ∧
      c.metadata.annots.Rewritten d
        (Annot.absorbAll (Annot.blank d visible c.metadata.policy) body) annots
  | .member (.typeAnnot ref path d visible body) =>
    c' = { c with
      metadata := c.metadata.modifyTypeAnnots visible fun l =>
        .ofList (l.toList ++
          [⟨ref, path, Annot.absorbAll (Annot.blank d visible c.metadata.policy) body⟩]) }
  | .component head body =>
    c' = { c with
      components := .ofList (c.components.toList ++
        [(ComponentDecl.blank head c.policy).absorbAll body]) }
  | .moduleInfo head body =>
    c' = { c with moduleInfo := some ((ModuleDecl.blank head).absorbAll body) }
  | _ => True

theorem opened_absorb (c : ClassDecl) (e : ClassEvent) : c.Opened e (c.absorb e) := by
  cases e with
  | field head body => exact ⟨_, c.absorb_field head body, c.fields.rewritten_insert ..⟩
  | method head body => exact ⟨_, c.absorb_method head body, c.methods.rewritten_insert ..⟩
  | component head body => exact c.absorb_component head body
  | moduleInfo head body => rfl
  | member e =>
    cases e with
    | annot d visible body =>
      refine ⟨_, ?_, c.metadata.annots.rewritten_insert ..⟩
      rw [← Metadata.absorb_annot]
      rfl
    | typeAnnot ref path d visible body =>
      have h := c.metadata.absorb_typeAnnot ref path d visible body
      exact congrArg (fun metadata => { c with metadata }) h
    | _ => trivial
  | _ => trivial

/-- **An opening always succeeds and touches its own entity only.** In any state
of the class, every slot on the way holds what was just stored there, however
deep, and the class changes in the one entity that the opening names, whose
contents owe nothing to what stood there before. -/
theorem opening_touches_own_entity (c : ClassDecl) (e : ClassEvent) :
    c.absorb? e = some (c.absorb e) ∧ c.Opened e (c.absorb e) :=
  ⟨c.absorb?_eq e, c.opened_absorb e⟩

end ClassDecl

end ClassTree

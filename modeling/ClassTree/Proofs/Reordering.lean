/-
# A policy decides the order and nothing else

The same events, absorbed under two policies, build two classes that differ in
the order of their keyed tables, at every depth, and in nothing else. `Reordered`
is that relation, level by level: tables hold the same keys with related values
in some order, lists correspond position by position, and everything that is not
stored in a table is the same. Policies and configurations are not looked at.

The two runs go apart at the first replacement and never meet again, so the
relation is carried along: one event keeps it (`Metadata.Reordered.absorb`,
`MethodDecl.Reordered.absorb`, `ClassDecl.Reordered.absorb`), because an entry
that lands in different places of two tables leaves the rest of them as related
as before (`Table.Reordered.insert`). What an event opens is built from nothing
on both sides. Related classes have the same features, so a check answers the
same, though it may meet another member first.

Key definitions: `Table.Reordered`, `AttrList.Aligned`, `ElementValue.Reordered`,
`Metadata.Reordered`, `MethodDecl.Reordered`, `ClassDecl.Reordered`.
-/
import ClassTree.Proofs.Requirements
import Mathlib.Data.List.Perm.Basic

namespace ClassTree

/-! ### Tables -/

/-- Entries that are related position by position agree on what the relation
keeps. -/
theorem map_eq_map_of_forall₂ {α : Type u} {β : Type v} {R : α → α → Prop} {f : α → β}
    (hf : ∀ x y, R x y → f x = f y) {xs ys : List α} (h : List.Forall₂ R xs ys) :
    xs.map f = ys.map f := by
  have hmap : List.Forall₂ (· = ·) (xs.map f) (ys.map f) := List.rel_map hf h
  rwa [List.forall₂_eq_eq_eq] at hmap

theorem any_eq_any_of_forall₂ {α : Type u} {R : α → α → Prop} {P : α → Bool}
    (hP : ∀ x y, R x y → P x = P y) {xs ys : List α} (h : List.Forall₂ R xs ys) :
    xs.any P = ys.any P := by
  have hmap := congrArg (List.any · id) (map_eq_map_of_forall₂ hP h)
  simpa only [List.any_map, Function.id_comp] using hmap

namespace Table

variable {κ : Type u} {ν : Type v} {R : ν → ν → Prop}

/-- Entries under the same key with related values. -/
inductive Paired (R : ν → ν → Prop) : κ × ν → κ × ν → Prop
  | mk (k : κ) {v w : ν} (h : R v w) : Paired R (k, v) (k, w)

/-- The entries of one table, put in some order, are paired with those of the
other. -/
def Reordered (R : ν → ν → Prop) (s t : Table κ ν) : Prop :=
  ∃ es, s.entries.Perm es ∧ List.Forall₂ (Paired R) es t.entries

theorem Paired.key_eq {e e' : κ × ν} (h : Paired R e e') : e.1 = e'.1 := by
  cases h
  rfl

theorem Paired.value {e e' : κ × ν} (h : Paired R e e') : R e.2 e'.2 := by
  cases h with
  | mk k h => exact h

theorem reordered_empty (R : ν → ν → Prop) (p q : ReplacePolicy) :
    (empty p : Table κ ν).Reordered R (empty q) :=
  ⟨[], List.Perm.refl _, List.Forall₂.nil⟩

/-- Either side may be put in order before the entries are paired. -/
theorem reordered_of_perm {s t : Table κ ν} {es es' : List (κ × ν)} (hs : s.entries.Perm es)
    (ht : t.entries.Perm es') (h : List.Forall₂ (Paired R) es es') : s.Reordered R t := by
  have hcomp : Relation.Comp (List.Forall₂ (Paired R)) List.Perm es t.entries := ⟨es', h, ht.symm⟩
  rw [List.forall₂_comp_perm_eq_perm_comp_forall₂] at hcomp
  obtain ⟨es'', hperm, hpaired⟩ := hcomp
  exact ⟨es'', hs.trans hperm, hpaired⟩

theorem Reordered.keys_perm {s t : Table κ ν} (h : s.Reordered R t) : s.keys.Perm t.keys := by
  obtain ⟨es, hperm, hpaired⟩ := h
  have hkeys : es.map (·.1) = t.keys := map_eq_map_of_forall₂ (fun _ _ he => he.key_eq) hpaired
  rw [← hkeys]
  exact hperm.map _

theorem Reordered.distinct {s t : Table κ ν} (h : s.Reordered R t) (hs : s.Distinct) : t.Distinct :=
  h.keys_perm.nodup_iff.mp hs

/-- What related values agree on holds somewhere in both tables or in neither. -/
theorem Reordered.any_values {s t : Table κ ν} (h : s.Reordered R t) {P : ν → Bool}
    (hP : ∀ v w, R v w → P v = P w) : s.values.any P = t.values.any P := by
  obtain ⟨es, hperm, hpaired⟩ := h
  have hentries : es.any (P ·.2) = t.entries.any (P ·.2) :=
    any_eq_any_of_forall₂ (fun _ _ he => hP _ _ he.value) hpaired
  unfold values
  rw [List.any_map, List.any_map]
  exact hperm.any_eq.trans hentries

variable [DecidableEq κ]

theorem put_perm (k : κ) (v : ν) : ∀ {es : List (κ × ν)}, (es.map (·.1)).Nodup →
    (put k v es).Perm (drop k es ++ [(k, v)])
  | [], _ => List.Perm.refl _
  | (k', v') :: es, hn => by
    obtain ⟨hhead, htail⟩ := List.nodup_cons.mp hn
    by_cases h : k' = k
    · subst h
      have hput : put k' v ((k', v') :: es) = (k', v) :: es := by simp [put]
      have hdrop : drop k' ((k', v') :: es) = drop k' es := by simp [drop]
      rw [hput, hdrop, drop_of_not_mem hhead]
      exact (List.perm_append_singleton _ _).symm
    · have hput : put k v ((k', v') :: es) = (k', v') :: put k v es := by simp [put, h]
      have hdrop : drop k ((k', v') :: es) = (k', v') :: drop k es := by simp [drop, h]
      rw [hput, hdrop]
      exact (put_perm k v htail).cons _

/-- Up to order, a policy does not show: what is stored replaces what stood under
its key. -/
theorem Distinct.insert_perm {t : Table κ ν} (ht : t.Distinct) (k : κ) (v : ν) :
    (t.insert k v).entries.Perm (drop k t.entries ++ [(k, v)]) := by
  rw [entries_insert]
  cases t.policy with
  | inPlace => exact put_perm k v ht
  | moveToEnd => exact List.Perm.refl _

/-- **Storing related values under one key keeps tables related**, wherever the
entries land. -/
theorem Reordered.insert {s t : Table κ ν} (h : s.Reordered R t) (hs : s.Distinct) (k : κ)
    {v w : ν} (hv : R v w) : (s.insert k v).Reordered R (t.insert k w) := by
  have ht := h.distinct hs
  obtain ⟨es, hperm, hpaired⟩ := h
  have hrest : List.Forall₂ (Paired R) (drop k es) (drop k t.entries) := by
    refine List.rel_filter (fun e e' he => ?_) hpaired
    show decide (e.1 ≠ k) = true ↔ decide (e'.1 ≠ k) = true
    rw [he.key_eq]
  have hlast : List.Forall₂ (Paired R) [(k, v)] [(k, w)] :=
    List.Forall₂.cons (Paired.mk k hv) List.Forall₂.nil
  refine reordered_of_perm ?_ (ht.insert_perm k w) (List.rel_append hrest hlast)
  exact (hs.insert_perm k v).trans ((hperm.filter _).append_right _)

theorem Reordered.insertAll {es es' : List (κ × ν)} (hes : List.Forall₂ (Paired R) es es') :
    ∀ {s t : Table κ ν}, s.Reordered R t → s.Distinct →
      (s.insertAll es).Reordered R (t.insertAll es') := by
  induction hes with
  | nil => exact fun h _ => h
  | cons he _ ih =>
    intro s t h hs
    cases he with
    | mk k hv => exact ih (h.insert hs k hv) (hs.insert k _)

end Table

/-! ### Lists -/

namespace AttrList

variable {α : Type u} {R : α → α → Prop}

/-- Both lists are absent, or their entries are related position by position. -/
def Aligned (R : α → α → Prop) (l m : AttrList α) : Prop :=
  Option.Rel (List.Forall₂ R) l.entries? m.entries?

theorem aligned_absent (R : α → α → Prop) : (absent : AttrList α).Aligned R absent :=
  Option.Rel.none

theorem Aligned.toList {l m : AttrList α} (h : l.Aligned R m) :
    List.Forall₂ R l.toList m.toList := by
  obtain ⟨xs⟩ := l
  obtain ⟨ys⟩ := m
  cases h with
  | none => exact List.Forall₂.nil
  | some h => exact h

theorem Aligned.isPresent_eq {l m : AttrList α} (h : l.Aligned R m) :
    l.isPresent = m.isPresent := by
  obtain ⟨xs⟩ := l
  obtain ⟨ys⟩ := m
  cases h with
  | none => rfl
  | some h => rfl

theorem Aligned.isEmpty_eq {l m : AttrList α} (h : l.Aligned R m) : l.isEmpty = m.isEmpty := by
  unfold isEmpty
  rw [Bool.eq_iff_iff, List.isEmpty_iff_length_eq_zero, List.isEmpty_iff_length_eq_zero,
    h.toList.length_eq]

theorem Aligned.push {l m : AttrList α} (h : l.Aligned R m) {x y : α} (hx : R x y) :
    (l.push x).Aligned R (m.push y) :=
  Option.Rel.some (List.rel_append h.toList (List.Forall₂.cons hx List.Forall₂.nil))

end AttrList

/-! ### Values and annotations -/

/-- The same value, or annotations and arrays of the same shape whose tables may
list their entries in another order, at any depth. -/
inductive ElementValue.Reordered : ElementValue → ElementValue → Prop
  | same (v : ElementValue) : Reordered v v
  | annot {a b : Annot} {es : List (String × ElementValue)}
      (hdescriptor : a.descriptor = b.descriptor) (hvisible : a.visible = b.visible)
      (hperm : a.elements.entries.Perm es)
      (hpaired : List.Forall₂ (Table.Paired Reordered) es b.elements.entries) :
      Reordered (.annot a) (.annot b)
  | array {r s : ValueArray} (hitems : List.Forall₂ Reordered r.items s.items) :
      Reordered (.array r) (.array s)

/-- The same head, and tables of related elements. -/
structure Annot.Reordered (a b : Annot) : Prop where
  descriptor : a.descriptor = b.descriptor
  visible : a.visible = b.visible
  elements : a.elements.Reordered ElementValue.Reordered b.elements

/-- Related items, position by position. -/
def ValueArray.Reordered (r s : ValueArray) : Prop :=
  List.Forall₂ ElementValue.Reordered r.items s.items

/-- Annotations whose elements come from paired histories are related. -/
theorem Annot.reordered_absorbAll_of (d : String) (visible : Bool) (p q : ReplacePolicy)
    {body : List ElementEvent}
    (h : List.Forall₂ (Table.Paired ElementValue.Reordered)
      (body.filterMap (ElementEvent.element? p)) (body.filterMap (ElementEvent.element? q))) :
    (Annot.absorbAll (Annot.blank d visible p) body).Reordered
      (Annot.absorbAll (Annot.blank d visible q) body) := by
  rw [Annot.absorbAll_eq, Annot.absorbAll_eq]
  refine ⟨rfl, rfl, ?_⟩
  exact Table.Reordered.insertAll h (Table.reordered_empty _ p q) (Table.distinct_empty p)

theorem ValueArray.reordered_absorbAll_of (p q : ReplacePolicy) {body : List ElementEvent}
    (h : List.Forall₂ (Table.Paired ElementValue.Reordered)
      (body.filterMap (ElementEvent.element? p)) (body.filterMap (ElementEvent.element? q))) :
    (ValueArray.absorbAll (ValueArray.blank p) body).Reordered
      (ValueArray.absorbAll (ValueArray.blank q) body) := by
  rw [ValueArray.absorbAll_eq, ValueArray.absorbAll_eq]
  exact List.rel_map (fun _ _ he => he.value) h

mutual

/-- Under two policies an event sets the same element, up to order inside. -/
theorem ElementEvent.element?_reordered (p q : ReplacePolicy) : ∀ e : ElementEvent,
    Option.Rel (Table.Paired ElementValue.Reordered) (e.element? p) (e.element? q)
  | .value name v => Option.Rel.some (.mk name (.same v))
  | .enum name d c => Option.Rel.some (.mk name (.same (.enum d c)))
  | .annot name d body => by
    obtain ⟨hd, hv, es, hperm, hpaired⟩ :=
      Annot.reordered_absorbAll_of d false p q (ElementEvent.elements_reordered p q body)
    exact Option.Rel.some (.mk name (.annot hd hv hperm hpaired))
  | .array name body => by
    have hitems := ValueArray.reordered_absorbAll_of p q (ElementEvent.elements_reordered p q body)
    exact Option.Rel.some (.mk name (.array hitems))
  | .finish => Option.Rel.none

theorem ElementEvent.elements_reordered (p q : ReplacePolicy) : ∀ es : List ElementEvent,
    List.Forall₂ (Table.Paired ElementValue.Reordered)
      (es.filterMap (ElementEvent.element? p)) (es.filterMap (ElementEvent.element? q))
  | [] => List.Forall₂.nil
  | e :: es => by
    have hrest := ElementEvent.elements_reordered p q es
    have he := ElementEvent.element?_reordered p q e
    rw [List.filterMap_cons, List.filterMap_cons]
    revert he
    cases e.element? p <;> cases e.element? q <;> intro he
    · exact hrest
    · cases he
    · cases he
    · cases he with
      | some he => exact List.Forall₂.cons he hrest

end

theorem Annot.reordered_absorbAll (d : String) (visible : Bool) (p q : ReplacePolicy)
    (body : List ElementEvent) : (Annot.absorbAll (Annot.blank d visible p) body).Reordered
      (Annot.absorbAll (Annot.blank d visible q) body) :=
  Annot.reordered_absorbAll_of d visible p q (ElementEvent.elements_reordered p q body)

/-! ### Metadata -/

/-- The same reference and path, and a related annotation. -/
structure TypeAnnot.Reordered (a b : TypeAnnot) : Prop where
  typeRef : a.typeRef = b.typeRef
  typePath : a.typePath = b.typePath
  annot : a.annot.Reordered b.annot

/-- Related annotations in some order, related type annotations position by
position, and the same extensions. -/
structure Metadata.Reordered (m n : Metadata) : Prop where
  annots : m.annots.Reordered Annot.Reordered n.annots
  visibleTypeAnnots : m.visibleTypeAnnots.Aligned TypeAnnot.Reordered n.visibleTypeAnnots
  invisibleTypeAnnots : m.invisibleTypeAnnots.Aligned TypeAnnot.Reordered n.invisibleTypeAnnots
  extensions : m.extensions = n.extensions

namespace Metadata

theorem reordered_blank (p q : ReplacePolicy) : (blank p).Reordered (blank q) where
  annots := Table.reordered_empty _ p q
  visibleTypeAnnots := AttrList.aligned_absent _
  invisibleTypeAnnots := AttrList.aligned_absent _
  extensions := rfl

theorem distinct_annots_absorb {m : Metadata} (h : m.annots.Distinct) (e : MemberEvent) :
    (m.absorb e).annots.Distinct := by
  cases e with
  | annot d visible body =>
    rw [absorb_annot]
    exact h.insert d _
  | typeAnnot ref path d visible body => cases visible <;> exact h
  | extension x => exact h
  | finish => exact h

/-- One event keeps metadata related. -/
theorem Reordered.absorb {m n : Metadata} (h : m.Reordered n) (hm : m.annots.Distinct)
    (e : MemberEvent) : (m.absorb e).Reordered (n.absorb e) := by
  cases e with
  | annot d visible body =>
    rw [absorb_annot, absorb_annot]
    have hannot := Annot.reordered_absorbAll d visible m.policy n.policy body
    exact { h with annots := h.annots.insert hm d hannot }
  | typeAnnot ref path d visible body =>
    rw [absorb_typeAnnot, absorb_typeAnnot]
    have hannot := Annot.reordered_absorbAll d visible m.policy n.policy body
    cases visible with
    | true => exact { h with visibleTypeAnnots := h.visibleTypeAnnots.push ⟨rfl, rfl, hannot⟩ }
    | false => exact { h with invisibleTypeAnnots := h.invisibleTypeAnnots.push ⟨rfl, rfl, hannot⟩ }
  | extension x => exact { h with extensions := congrArg (AttrList.push · x) h.extensions }
  | finish => exact h

theorem Reordered.absorbAll (es : List MemberEvent) : ∀ {m n : Metadata}, m.Reordered n →
    m.annots.Distinct → (m.absorbAll es).Reordered (n.absorbAll es) := by
  induction es with
  | nil => exact fun h _ => h
  | cons e es ih => exact fun h hm => ih (h.absorb hm e) (distinct_annots_absorb hm e)

/-- The same events build related metadata under two policies. -/
theorem reordered_absorbAll_blank (p q : ReplacePolicy) (es : List MemberEvent) :
    ((blank p).absorbAll es).Reordered ((blank q).absorbAll es) :=
  Reordered.absorbAll es (reordered_blank p q) (Table.distinct_empty p)

theorem Reordered.hasTypeAnnots_eq {m n : Metadata} (h : m.Reordered n) :
    m.hasTypeAnnots = n.hasTypeAnnots := by
  unfold hasTypeAnnots
  rw [h.visibleTypeAnnots.isEmpty_eq, h.invisibleTypeAnnots.isEmpty_eq]

end Metadata

/-! ### Members -/

/-- The same head and related metadata. -/
structure ComponentDecl.Reordered (c d : ComponentDecl) : Prop where
  head : c.toComponentHead = d.toComponentHead
  metadata : c.metadata.Reordered d.metadata

/-- The same head, initial value included, and related metadata. -/
structure FieldDecl.Reordered (f g : FieldDecl) : Prop where
  head : f.toFieldHead = g.toFieldHead
  metadata : f.metadata.Reordered g.metadata

/-- The same head, parameters and body handle, related defaults and metadata. -/
structure MethodDecl.Reordered (m n : MethodDecl) : Prop where
  head : m.toMethodHead = n.toMethodHead
  parameters : m.parameters = n.parameters
  annotDefault : Option.Rel ValueArray.Reordered m.annotDefault n.annotDefault
  metadata : m.metadata.Reordered n.metadata
  code : m.code = n.code

theorem ComponentDecl.reordered_absorbAll_blank (head : ComponentHead) (p q : ReplacePolicy)
    (body : List MemberEvent) :
    ((blank head p).absorbAll body).Reordered ((blank head q).absorbAll body) := by
  rw [absorbAll_eq, absorbAll_eq]
  exact ⟨rfl, Metadata.reordered_absorbAll_blank p q body⟩

theorem FieldDecl.reordered_absorbAll_blank (head : FieldHead) (p q : ReplacePolicy)
    (body : List MemberEvent) :
    ((blank head p).absorbAll body).Reordered ((blank head q).absorbAll body) := by
  rw [absorbAll_eq, absorbAll_eq]
  exact ⟨rfl, Metadata.reordered_absorbAll_blank p q body⟩

namespace MethodDecl

/-- One event keeps methods related. -/
theorem Reordered.absorb {m n : MethodDecl} (h : m.Reordered n) (hm : m.metadata.annots.Distinct)
    (e : MethodEvent) : (m.absorb e).Reordered (n.absorb e) := by
  cases e with
  | member e => exact { h with metadata := h.metadata.absorb hm e }
  | parameter p => exact { h with parameters := congrArg (AttrList.push · p) h.parameters }
  | annotDefault body =>
    have hitems := ValueArray.reordered_absorbAll_of m.metadata.policy n.metadata.policy
      (ElementEvent.elements_reordered _ _ body)
    exact { h with annotDefault := Option.Rel.some hitems }
  | code c => exact { h with code := rfl }

theorem distinct_annots_absorb {m : MethodDecl} (h : m.metadata.annots.Distinct) (e : MethodEvent) :
    (m.absorb e).metadata.annots.Distinct := by
  cases e with
  | member e => exact Metadata.distinct_annots_absorb h e
  | _ => exact h

theorem Reordered.absorbAll (es : List MethodEvent) : ∀ {m n : MethodDecl}, m.Reordered n →
    m.metadata.annots.Distinct → (m.absorbAll es).Reordered (n.absorbAll es) := by
  induction es with
  | nil => exact fun h _ => h
  | cons e es ih => exact fun h hm => ih (h.absorb hm e) (distinct_annots_absorb hm e)

theorem reordered_absorbAll_blank (head : MethodHead) (p q : ReplacePolicy)
    (body : List MethodEvent) :
    ((blank head p).absorbAll body).Reordered ((blank head q).absorbAll body) :=
  Reordered.absorbAll body ⟨rfl, rfl, Option.Rel.none, Metadata.reordered_blank p q, rfl⟩
    (Table.distinct_empty p)

end MethodDecl

/-! ### Classes -/

/-- The same class up to the order of keyed tables, at every depth. Policies and
configurations are not compared. -/
structure ClassDecl.Reordered (c d : ClassDecl) : Prop where
  header : c.toClassHeader = d.toClassHeader
  sourceFile : c.sourceFile = d.sourceFile
  sourceDebug : c.sourceDebug = d.sourceDebug
  moduleInfo : c.moduleInfo = d.moduleInfo
  outerClass : c.outerClass = d.outerClass
  nestHost : c.nestHost = d.nestHost
  metadata : c.metadata.Reordered d.metadata
  nestMembers : c.nestMembers = d.nestMembers
  permittedSubtypes : c.permittedSubtypes = d.permittedSubtypes
  innerClasses : c.innerClasses = d.innerClasses
  components : c.components.Aligned ComponentDecl.Reordered d.components
  fields : c.fields.Reordered FieldDecl.Reordered d.fields
  methods : c.methods.Reordered MethodDecl.Reordered d.methods

/-- No table of the class itself lists a key twice. -/
structure ClassDecl.DistinctHere (c : ClassDecl) : Prop where
  annots : c.metadata.annots.Distinct
  fields : c.fields.Distinct
  methods : c.methods.Distinct

namespace ClassDecl

theorem distinctHere_blank (c : Config) : (blank c).DistinctHere :=
  ⟨Table.distinct_empty _, Table.distinct_empty _, Table.distinct_empty _⟩

theorem DistinctHere.absorb {c : ClassDecl} (h : c.DistinctHere) (e : ClassEvent) :
    (c.absorb e).DistinctHere := by
  cases e with
  | member e => exact { h with annots := Metadata.distinct_annots_absorb h.annots e }
  | field head body =>
    rw [absorb_field]
    exact { h with fields := h.fields.insert head.name _ }
  | method head body =>
    rw [absorb_method]
    exact { h with methods := h.methods.insert head.key _ }
  | _ => exact ⟨h.annots, h.fields, h.methods⟩

theorem reordered_blank (c d : Config) : (blank c).Reordered (blank d) where
  header := rfl
  sourceFile := rfl
  sourceDebug := rfl
  moduleInfo := rfl
  outerClass := rfl
  nestHost := rfl
  metadata := Metadata.reordered_blank _ _
  nestMembers := rfl
  permittedSubtypes := rfl
  innerClasses := rfl
  components := AttrList.aligned_absent _
  fields := Table.reordered_empty _ _ _
  methods := Table.reordered_empty _ _ _

/-- **One event keeps classes related**, whatever their policies. -/
theorem Reordered.absorb {c d : ClassDecl} (h : c.Reordered d) (hc : c.DistinctHere)
    (e : ClassEvent) : (c.absorb e).Reordered (d.absorb e) := by
  cases e with
  | header head => exact { h with header := rfl }
  | source file debug => exact { h with sourceFile := rfl, sourceDebug := rfl }
  | moduleInfo head body => exact { h with moduleInfo := rfl }
  | nestHost name => exact { h with nestHost := rfl }
  | outerClass o => exact { h with outerClass := rfl }
  | member e => exact { h with metadata := h.metadata.absorb hc.annots e }
  | nestMember name => exact { h with nestMembers := congrArg (AttrList.push · name) h.nestMembers }
  | permittedSubtype name =>
    exact { h with permittedSubtypes := congrArg (AttrList.push · name) h.permittedSubtypes }
  | innerClass i => exact { h with innerClasses := congrArg (· ++ [i]) h.innerClasses }
  | component head body =>
    rw [absorb_component, absorb_component]
    have hcomponent := ComponentDecl.reordered_absorbAll_blank head c.policy d.policy body
    exact { h with components := h.components.push hcomponent }
  | field head body =>
    rw [absorb_field, absorb_field]
    have hfield := FieldDecl.reordered_absorbAll_blank head c.policy d.policy body
    exact { h with fields := h.fields.insert hc.fields head.name hfield }
  | method head body =>
    rw [absorb_method, absorb_method]
    have hmethod := MethodDecl.reordered_absorbAll_blank head c.policy d.policy body
    exact { h with methods := h.methods.insert hc.methods head.key hmethod }

/-- A run of events keeps classes related. -/
theorem Reordered.absorbAll (es : List ClassEvent) : ∀ {c d : ClassDecl}, c.Reordered d →
    c.DistinctHere → (c.absorbAll es).Reordered (d.absorbAll es) := by
  induction es with
  | nil => exact fun h _ => h
  | cons e es ih => exact fun h hc => ih (h.absorb hc e) (hc.absorb e)

/-- Order is no feature. -/
theorem Reordered.hasFeature_eq {c d : ClassDecl} (h : c.Reordered d) (f : Feature) :
    c.hasFeature f = d.hasFeature f := by
  cases f with
  | typeAnnots =>
    have hcomponents : (c.components.toList.any (·.metadata.hasTypeAnnots)) =
        d.components.toList.any (·.metadata.hasTypeAnnots) :=
      any_eq_any_of_forall₂ (fun _ _ hd => hd.metadata.hasTypeAnnots_eq) h.components.toList
    have hfields : (c.fields.values.any (·.metadata.hasTypeAnnots)) =
        d.fields.values.any (·.metadata.hasTypeAnnots) :=
      h.fields.any_values fun _ _ hf => hf.metadata.hasTypeAnnots_eq
    have hmethods : (c.methods.values.any (·.metadata.hasTypeAnnots)) =
        d.methods.values.any (·.metadata.hasTypeAnnots) :=
      h.methods.any_values fun _ _ hm => hm.metadata.hasTypeAnnots_eq
    simp only [hasFeature, allMetadata, List.any_cons, List.any_append, List.any_map,
      Function.comp_def]
    rw [h.metadata.hasTypeAnnots_eq, hcomponents, hfields, hmethods]
  | methodParameters =>
    refine h.methods.any_values fun m n hm => ?_
    rw [hm.parameters]
  | modules => exact congrArg Option.isSome h.moduleInfo
  | nesting =>
    unfold hasFeature isNested
    rw [h.nestHost, h.nestMembers]
  | records =>
    have haccess : c.access = d.access := congrArg ClassHeader.access h.header
    unfold hasFeature isRecord
    rw [haccess, h.components.isPresent_eq]
  | permittedSubtypes => exact congrArg AttrList.isPresent h.permittedSubtypes

theorem Reordered.requiredTier_eq {c d : ClassDecl} (h : c.Reordered d) :
    c.requiredTier = d.requiredTier := by
  unfold requiredTier
  rw [funext h.hasFeature_eq]

/-- **The policy decides the order of keyed tables and nothing else.** Whatever
the events, the classes that they build under two configurations are the same up
to that order, at every depth, and a check at any tier accepts both or refuses
both; the error names the tier alone. -/
theorem policy_decides_order_only (c d : Config) (es : List ClassEvent) :
    ((blank c).absorbAll es).Reordered ((blank d).absorbAll es) ∧
    ∀ t, (((blank c).absorbAll es).check t).mapError Violation.tier =
      (((blank d).absorbAll es).check t).mapError Violation.tier := by
  have hreordered := Reordered.absorbAll es (reordered_blank c d) (distinctHere_blank c)
  refine ⟨hreordered, fun t => ?_⟩
  rw [mapError_check, mapError_check, hreordered.requiredTier_eq]

example : ReplacePolicy.all.map (fun p =>
    let x : ClassEvent := .field ⟨.empty, "x", "I", none, none⟩ []
    let y : ClassEvent := .field ⟨.empty, "y", "I", none, none⟩ []
    ((blank { replacePolicy := p }).absorbAll [x, y, x]).fields.keys) =
      [["x", "y"], ["y", "x"]] := by
  decide

end ClassDecl

end ClassTree

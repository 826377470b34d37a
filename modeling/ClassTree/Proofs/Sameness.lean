/-
# What equality compares

`Same` says in words what `==` decides, level by level: floating-point constants
that stand for the same number, bodies by their identity, tables entry by entry
in order, lists entry by entry, everything else by being equal. Policies, the
configuration and the presence of a list are not mentioned.

The comparison decides this relation (`ClassDecl.beq_iff_same`), so it is
symmetric and transitive. It is not reflexive. A NaN stands for no number, and a
class is the same as itself exactly if it holds none, in a constant or in a value
at any depth (`ClassDecl.same_self_iff`).

Both facts go from the values up: one lemma for lists, tables and options each,
an induction for values, which nest, and one step for each kind of part.

Key definitions: `ElementValue.Same`, `Metadata.Same`, `ClassDecl.Same`,
`Comparison`.
-/
import ClassTree.Proofs.Numbers
import ClassTree.Proofs.Reordering
import ClassTree.Proofs.RoundTrip

namespace ClassTree

/-! ### Lists, options and tables -/

section

variable {α : Type u} [BEq α] {R : α → α → Prop}

/-- Lists are compared entry by entry. -/
theorem list_beq_iff_forall₂ : ∀ {xs ys : List α}, (∀ x ∈ xs, ∀ y, (x == y) = true ↔ R x y) →
    ((xs == ys) = true ↔ List.Forall₂ R xs ys)
  | [], [], _ => iff_of_true rfl List.Forall₂.nil
  | [], _ :: _, _ => iff_of_false Bool.false_ne_true fun h => nomatch h
  | _ :: _, [], _ => iff_of_false Bool.false_ne_true fun h => nomatch h
  | x :: xs, y :: ys, h => by
    have htail : (xs == ys) = true ↔ List.Forall₂ R xs ys :=
      list_beq_iff_forall₂ fun z hz => h z (List.mem_cons_of_mem x hz)
    rw [List.forall₂_cons, ← h x List.mem_cons_self y, ← htail]
    exact Bool.and_eq_true_iff

theorem option_beq_iff_rel (h : ∀ x y, (x == y) = true ↔ R x y) : ∀ {x y : Option α},
    (x == y) = true ↔ Option.Rel R x y
  | none, none => iff_of_true rfl Option.Rel.none
  | none, some _ => iff_of_false Bool.false_ne_true fun h => nomatch h
  | some _, none => iff_of_false Bool.false_ne_true fun h => nomatch h
  | some x, some y => (h x y).trans ⟨Option.Rel.some, fun hxy => by cases hxy; assumption⟩

end

theorem option_rel_self_iff {α : Type u} (R : α → α → Prop) : ∀ x : Option α,
    Option.Rel R x x ↔ ∀ a ∈ x, R a a
  | none => iff_of_true Option.Rel.none fun _ h => nomatch h
  | some a => by
    constructor
    · rintro (h | -) b hb
      obtain rfl := Option.mem_some_iff.mp hb
      exact h
    · exact fun h => Option.Rel.some (h a rfl)

/-- The entries of the lists are related, in order; presence is not asked. -/
def AttrList.Same {α : Type u} (R : α → α → Prop) (l m : AttrList α) : Prop :=
  List.Forall₂ R l.toList m.toList

theorem AttrList.beq_iff_same {α : Type u} [BEq α] {R : α → α → Prop}
    (h : ∀ x y, (x == y) = true ↔ R x y) (l m : AttrList α) : (l == m) = true ↔ l.Same R m :=
  list_beq_iff_forall₂ fun x _ => h x

theorem AttrList.beq_iff_toList_eq {α : Type u} [BEq α] [LawfulBEq α] (l m : AttrList α) :
    (l == m) = true ↔ l.toList = m.toList :=
  beq_iff_eq (a := l.toList)

namespace Table

variable {κ : Type u} {ν : Type v} {R : ν → ν → Prop}

/-- The tables list the same keys in the same order, with related values; policies
are not asked. -/
def Same (R : ν → ν → Prop) (s t : Table κ ν) : Prop :=
  List.Forall₂ (Paired R) s.entries t.entries

theorem paired_iff {e e' : κ × ν} : Paired R e e' ↔ e.1 = e'.1 ∧ R e.2 e'.2 := by
  constructor
  · exact fun h => ⟨h.key_eq, h.value⟩
  · obtain ⟨k, v⟩ := e
    obtain ⟨k', w⟩ := e'
    rintro ⟨rfl, h⟩
    exact Paired.mk k h

theorem entries_beq_iff [BEq κ] [LawfulBEq κ] [BEq ν] {es es' : List (κ × ν)}
    (h : ∀ e ∈ es, ∀ w, (e.2 == w) = true ↔ R e.2 w) :
    (es == es') = true ↔ List.Forall₂ (Paired R) es es' := by
  refine list_beq_iff_forall₂ fun e he e' => ?_
  rw [paired_iff, ← h e he, ← beq_iff_eq (a := e.1)]
  exact Bool.and_eq_true_iff

theorem beq_iff_same [BEq κ] [LawfulBEq κ] [BEq ν] (h : ∀ x y, (x == y) = true ↔ R x y)
    (s t : Table κ ν) : (s == t) = true ↔ s.Same R t :=
  entries_beq_iff fun e _ => h e.2

theorem same_self_iff (t : Table κ ν) : t.Same R t ↔ ∀ v ∈ t.values, R v v := by
  unfold Same values
  rw [List.forall₂_same, List.forall_mem_map]
  exact forall₂_congr fun e _ => paired_iff.trans (and_iff_right rfl)

end Table

/-! ### Constants and values -/

/-- The same constant; floating-point ones stand for the same number. -/
inductive Constant.Same : Constant → Constant → Prop
  | int (n : Int32) : Same (.int n) (.int n)
  | float {x y : Binary32} (h : x.SameNumber y) : Same (.float x) (.float y)
  | long (n : Int64) : Same (.long n) (.long n)
  | double {x y : Binary64} (h : x.SameNumber y) : Same (.double x) (.double y)
  | string (s : String) : Same (.string s) (.string s)

theorem Constant.beq_iff_same (k l : Constant) : (k == l) = true ↔ k.Same l := by
  cases k with
  | float x =>
    cases l with
    | float y => exact (x.beq_iff_sameNumber y).trans ⟨Same.float, fun h => by cases h; assumption⟩
    | _ => exact iff_of_false Bool.false_ne_true fun h => nomatch h
  | double x =>
    cases l with
    | double y => exact (x.beq_iff_sameNumber y).trans ⟨Same.double, fun h => by cases h; assumption⟩
    | _ => exact iff_of_false Bool.false_ne_true fun h => nomatch h
  | int n | long n | string n =>
    cases l <;> first
      | exact iff_of_false Bool.false_ne_true fun h => nomatch h
      | constructor
        · intro h
          obtain rfl := eq_of_beq (a := n) h
          constructor
        · intro h
          cases h
          exact beq_self_eq_true n

/-- Values of the same kind with the same contents: floating-point ones stand for
the same number, annotations agree in head and elements, arrays in their items. -/
inductive ElementValue.Same : ElementValue → ElementValue → Prop
  | byte (n : Int8) : Same (.byte n) (.byte n)
  | boolean (b : Bool) : Same (.boolean b) (.boolean b)
  | char (unit : UInt16) : Same (.char unit) (.char unit)
  | short (n : Int16) : Same (.short n) (.short n)
  | int (n : Int32) : Same (.int n) (.int n)
  | long (n : Int64) : Same (.long n) (.long n)
  | float {x y : Binary32} (h : x.SameNumber y) : Same (.float x) (.float y)
  | double {x y : Binary64} (h : x.SameNumber y) : Same (.double x) (.double y)
  | string (s : String) : Same (.string s) (.string s)
  | classLiteral (d : String) : Same (.classLiteral d) (.classLiteral d)
  | enum (d c : String) : Same (.enum d c) (.enum d c)
  | annot {a b : Annot} (hdescriptor : a.descriptor = b.descriptor)
      (hvisible : a.visible = b.visible)
      (helements : List.Forall₂ (Table.Paired Same) a.elements.entries b.elements.entries) :
      Same (.annot a) (.annot b)
  | array {r s : ValueArray} (hitems : List.Forall₂ Same r.items s.items) :
      Same (.array r) (.array s)

/-- The same head, and the same elements in the same order. -/
@[mk_iff]
structure Annot.Same (a b : Annot) : Prop where
  descriptor : a.descriptor = b.descriptor
  visible : a.visible = b.visible
  elements : a.elements.Same ElementValue.Same b.elements

/-- The same items in the same order. -/
def ValueArray.Same (r s : ValueArray) : Prop := List.Forall₂ ElementValue.Same r.items s.items

namespace ElementValue

theorem same_annot_iff (a b : Annot) : (annot a).Same (annot b) ↔ a.Same b := by
  constructor
  · intro h
    cases h with
    | annot hd hv he => exact ⟨hd, hv, he⟩
  · rintro ⟨hd, hv, he⟩
    exact Same.annot hd hv he

theorem same_array_iff (r s : ValueArray) : (array r).Same (array s) ↔ r.Same s := by
  constructor
  · intro h
    cases h with
    | array hitems => exact hitems
  · exact Same.array

theorem beq_iff_same (v : ElementValue) : ∀ w, (v == w) = true ↔ v.Same w := by
  induction v using ElementValue.induct with
  | annot a ih =>
    intro w
    cases w with
    | annot b =>
      rw [annot_beq_annot, Annot.beq_iff, same_annot_iff, Annot.same_iff]
      exact and_congr_right fun _ => and_congr_right fun _ => Table.entries_beq_iff ih
    | _ => exact iff_of_false Bool.false_ne_true fun h => nomatch h
  | array r ih =>
    intro w
    cases w with
    | array s =>
      rw [array_beq_array, same_array_iff]
      exact list_beq_iff_forall₂ ih
    | _ => exact iff_of_false Bool.false_ne_true fun h => nomatch h
  | float x =>
    intro w
    cases w with
    | float y => exact (x.beq_iff_sameNumber y).trans ⟨Same.float, fun h => by cases h; assumption⟩
    | _ => exact iff_of_false Bool.false_ne_true fun h => nomatch h
  | double x =>
    intro w
    cases w with
    | double y => exact (x.beq_iff_sameNumber y).trans ⟨Same.double, fun h => by cases h; assumption⟩
    | _ => exact iff_of_false Bool.false_ne_true fun h => nomatch h
  | enum d c =>
    intro w
    cases w with
    | enum d' c' =>
      constructor
      · intro h
        obtain ⟨hd, hc⟩ := Bool.and_eq_true_iff.mp h
        obtain rfl := eq_of_beq hd
        obtain rfl := eq_of_beq hc
        exact Same.enum d c
      · intro h
        cases h
        exact Bool.and_eq_true_iff.mpr ⟨beq_self_eq_true d, beq_self_eq_true c⟩
    | _ => exact iff_of_false Bool.false_ne_true fun h => nomatch h
  | byte n | boolean n | char n | short n | int n | long n | string n | classLiteral n =>
    intro w
    cases w <;> first
      | exact iff_of_false Bool.false_ne_true fun h => nomatch h
      | constructor
        · intro h
          obtain rfl := eq_of_beq (a := n) h
          constructor
        · intro h
          cases h
          exact beq_self_eq_true n

/-- A value is the same as itself if no value in it is a NaN. -/
theorem same_self_iff (v : ElementValue) : v.Same v ↔ v.Everywhere NotNaN := by
  induction v using ElementValue.induct with
  | annot a ih =>
    have helements : a.elements.Same Same a.elements ↔
        ∀ e ∈ a.elements.entries, e.2.Everywhere NotNaN := by
      rw [Table.same_self_iff]
      unfold Table.values
      rw [List.forall_mem_map]
      exact forall₂_congr ih
    rw [same_annot_iff, Annot.same_iff, everywhere_annot, helements]
    simp [NotNaN]
  | array r ih =>
    rw [same_array_iff, everywhere_array]
    unfold ValueArray.Same
    rw [List.forall₂_same, forall₂_congr ih]
    simp [NotNaN]
  | float x => exact (beq_iff_same _ _).symm.trans x.beq_self_iff
  | double x => exact (beq_iff_same _ _).symm.trans x.beq_self_iff
  | _ => exact iff_of_true (by constructor) trivial

end ElementValue

theorem Annot.beq_iff_same (a b : Annot) : (a == b) = true ↔ a.Same b := by
  rw [← ElementValue.annot_beq_annot, ElementValue.beq_iff_same, ElementValue.same_annot_iff]

theorem Annot.same_self_iff (a : Annot) : a.Same a ↔ a.EveryValue ElementValue.NotNaN := by
  rw [← ElementValue.same_annot_iff, ElementValue.same_self_iff, ElementValue.everywhere_annot]
  exact and_iff_right trivial

theorem ValueArray.beq_iff_same (r s : ValueArray) : (r == s) = true ↔ r.Same s := by
  rw [← ElementValue.array_beq_array, ElementValue.beq_iff_same, ElementValue.same_array_iff]

theorem ValueArray.same_self_iff (r : ValueArray) :
    r.Same r ↔ r.EveryValue ElementValue.NotNaN := by
  rw [← ElementValue.same_array_iff, ElementValue.same_self_iff, ElementValue.everywhere_array]
  exact and_iff_right trivial

/-! ### Metadata -/

/-- The same reference and path, and the same annotation. -/
@[mk_iff]
structure TypeAnnot.Same (a b : TypeAnnot) : Prop where
  typeRef : a.typeRef = b.typeRef
  typePath : a.typePath = b.typePath
  annot : a.annot.Same b.annot

theorem TypeAnnot.beq_iff_same (a b : TypeAnnot) : (a == b) = true ↔ a.Same b := by
  rw [TypeAnnot.beq_iff, Annot.beq_iff_same, TypeAnnot.same_iff]

theorem TypeAnnot.same_self_iff (a : TypeAnnot) :
    a.Same a ↔ a.annot.EveryValue ElementValue.NotNaN := by
  rw [TypeAnnot.same_iff, Annot.same_self_iff]
  simp

/-- The same annotations, type annotations and extensions, each in order. -/
@[mk_iff]
structure Metadata.Same (m n : Metadata) : Prop where
  annots : m.annots.Same Annot.Same n.annots
  typeAnnots : ∀ visible, (m.typeAnnots visible).Same TypeAnnot.Same (n.typeAnnots visible)
  extensions : m.extensions.toList = n.extensions.toList

namespace Metadata

theorem beq_iff_same (m n : Metadata) : (m == n) = true ↔ m.Same n := by
  rw [beq_iff, same_iff, Table.beq_iff_same Annot.beq_iff_same, AttrList.beq_iff_toList_eq]
  simp only [AttrList.beq_iff_same TypeAnnot.beq_iff_same]

theorem same_self_iff (m : Metadata) :
    m.Same m ↔ m.EveryAnnot (Annot.EveryValue ElementValue.NotNaN) := by
  have htypes : ∀ visible, (m.typeAnnots visible).Same TypeAnnot.Same (m.typeAnnots visible) ↔
      ∀ a ∈ (m.typeAnnots visible).toList, a.annot.EveryValue ElementValue.NotNaN := by
    intro visible
    unfold AttrList.Same
    rw [List.forall₂_same]
    exact forall₂_congr fun a _ => a.same_self_iff
  rw [same_iff, Table.same_self_iff, forall₂_congr fun a _ => a.same_self_iff, forall_congr' htypes]
  unfold EveryAnnot
  simp

end Metadata

/-! ### Members and modules -/

/-- The same head and the same metadata. -/
@[mk_iff]
structure ComponentDecl.Same (c d : ComponentDecl) : Prop where
  head : c.toComponentHead = d.toComponentHead
  metadata : c.metadata.Same d.metadata

theorem ComponentDecl.beq_iff_same (c d : ComponentDecl) : (c == d) = true ↔ c.Same d := by
  rw [ComponentDecl.beq_iff, Metadata.beq_iff_same, ComponentDecl.same_iff]

theorem ComponentDecl.same_self_iff (c : ComponentDecl) : c.Same c ↔ c.metadata.Same c.metadata := by
  simp [ComponentDecl.same_iff]

/-- The same head, with the same constant if any, and the same metadata. -/
@[mk_iff]
structure FieldDecl.Same (f g : FieldDecl) : Prop where
  access : f.access = g.access
  name : f.name = g.name
  descriptor : f.descriptor = g.descriptor
  signature : f.signature = g.signature
  value : Option.Rel Constant.Same f.value g.value
  metadata : f.metadata.Same g.metadata

theorem FieldDecl.beq_iff_same (f g : FieldDecl) : (f == g) = true ↔ f.Same g := by
  have hhead : (f.toFieldHead == g.toFieldHead) = (f.access == g.access && f.name == g.name &&
    f.descriptor == g.descriptor && f.signature == g.signature && f.value == g.value) := rfl
  rw [FieldDecl.beq_iff, hhead, Metadata.beq_iff_same, FieldDecl.same_iff,
    ← option_beq_iff_rel Constant.beq_iff_same]
  simp only [Bool.and_eq_true, beq_iff_eq, and_assoc]

theorem FieldDecl.same_self_iff (f : FieldDecl) :
    f.Same f ↔ (∀ k ∈ f.value, k.NotNaN) ∧ f.metadata.Same f.metadata := by
  have hvalue : (∀ k ∈ f.value, k.Same k) ↔ ∀ k ∈ f.value, k.NotNaN :=
    forall₂_congr fun k _ => (k.beq_iff_same k).symm.trans k.beq_self_iff
  rw [FieldDecl.same_iff, option_rel_self_iff, hvalue]
  simp

/-- The same head, parameters, default and metadata, and the same body: not one
that holds the same bytes. -/
@[mk_iff]
structure MethodDecl.Same (m n : MethodDecl) : Prop where
  head : m.toMethodHead = n.toMethodHead
  parameters : m.parameters.toList = n.parameters.toList
  annotDefault : Option.Rel ValueArray.Same m.annotDefault n.annotDefault
  metadata : m.metadata.Same n.metadata
  code : m.code.map Code.id = n.code.map Code.id

theorem Code.option_beq_iff : ∀ c d : Option Code, (c == d) = true ↔ c.map Code.id = d.map Code.id
  | none, none => by simp
  | none, some _ => by simp
  | some _, none => by simp
  | some c, some d => (beq_iff_eq (a := c.id)).trans (by simp)

theorem MethodDecl.beq_iff_same (m n : MethodDecl) : (m == n) = true ↔ m.Same n := by
  rw [MethodDecl.beq_iff, AttrList.beq_iff_toList_eq, option_beq_iff_rel ValueArray.beq_iff_same,
    Metadata.beq_iff_same, Code.option_beq_iff, MethodDecl.same_iff]

theorem MethodDecl.same_self_iff (m : MethodDecl) : m.Same m ↔
    (∀ r ∈ m.annotDefault, ValueArray.EveryValue ElementValue.NotNaN r) ∧
      m.metadata.Same m.metadata := by
  rw [MethodDecl.same_iff, option_rel_self_iff, forall₂_congr fun r _ => ValueArray.same_self_iff r]
  simp

/-- The same head and the same directives in the same order. -/
@[mk_iff]
structure ModuleDecl.Same (m n : ModuleDecl) : Prop where
  head : m.toModuleHead = n.toModuleHead
  mainClass : m.mainClass = n.mainClass
  packages : m.packages.toList = n.packages.toList
  requires : m.requires.toList = n.requires.toList
  exports : m.exports.toList = n.exports.toList
  opens : m.opens.toList = n.opens.toList
  uses : m.uses.toList = n.uses.toList
  provides : m.provides.toList = n.provides.toList

theorem ModuleDecl.beq_iff_same (m n : ModuleDecl) : (m == n) = true ↔ m.Same n := by
  show (m.toModuleHead == n.toModuleHead && m.mainClass == n.mainClass &&
    m.packages == n.packages && m.requires == n.requires && m.exports == n.exports &&
    m.opens == n.opens && m.uses == n.uses && m.provides == n.provides) = true ↔ _
  simp only [Bool.and_eq_true, beq_iff_eq, AttrList.beq_iff_toList_eq, and_assoc,
    ModuleDecl.same_iff]

theorem ModuleDecl.same_self (m : ModuleDecl) : m.Same m := ⟨rfl, rfl, rfl, rfl, rfl, rfl, rfl, rfl⟩

/-! ### Classes -/

/-- The same class: what is compared, and as what. The configuration is not. -/
@[mk_iff]
structure ClassDecl.Same (a b : ClassDecl) : Prop where
  header : a.toClassHeader = b.toClassHeader
  sourceFile : a.sourceFile = b.sourceFile
  sourceDebug : a.sourceDebug = b.sourceDebug
  moduleInfo : Option.Rel ModuleDecl.Same a.moduleInfo b.moduleInfo
  nestHost : a.nestHost = b.nestHost
  outerClass : a.outerClass = b.outerClass
  nestMembers : a.nestMembers.toList = b.nestMembers.toList
  permittedSubtypes : a.permittedSubtypes.toList = b.permittedSubtypes.toList
  innerClasses : a.innerClasses = b.innerClasses
  metadata : a.metadata.Same b.metadata
  components : a.components.Same ComponentDecl.Same b.components
  fields : a.fields.Same FieldDecl.Same b.fields
  methods : a.methods.Same MethodDecl.Same b.methods

/-- A comparison decides a relation, is symmetric and transitive, and finds a thing
equal to itself exactly if it is in the domain. -/
structure Comparison (α : Type u) [BEq α] (same : α → α → Prop) (domain : α → Prop) : Prop where
  beq_iff : ∀ x y : α, (x == y) = true ↔ same x y
  symm : ∀ x y : α, (x == y) = true → (y == x) = true
  trans : ∀ x y z : α, (x == y) = true → (y == z) = true → (x == z) = true
  self_iff : ∀ x : α, (x == x) = true ↔ domain x

theorem comparison_of {α : Type u} [BEq α] [PartialEquivBEq α] {same : α → α → Prop}
    {domain : α → Prop} (hsame : ∀ x y : α, (x == y) = true ↔ same x y)
    (hself : ∀ x, same x x ↔ domain x) : Comparison α same domain where
  beq_iff := hsame
  symm _ _ := BEq.symm
  trans _ _ _ := BEq.trans
  self_iff x := (hsame x x).trans (hself x)

namespace ClassDecl

theorem beq_iff_same (a b : ClassDecl) : (a == b) = true ↔ a.Same b := by
  have hframe : a.SameFrame b ↔ a.toClassHeader = b.toClassHeader ∧ a.sourceFile = b.sourceFile ∧
      a.sourceDebug = b.sourceDebug ∧ Option.Rel ModuleDecl.Same a.moduleInfo b.moduleInfo ∧
      a.nestHost = b.nestHost ∧ a.outerClass = b.outerClass ∧
      a.nestMembers.toList = b.nestMembers.toList ∧
      a.permittedSubtypes.toList = b.permittedSubtypes.toList ∧ a.innerClasses = b.innerClasses := by
    rw [← option_beq_iff_rel ModuleDecl.beq_iff_same, ← AttrList.beq_iff_toList_eq,
      ← AttrList.beq_iff_toList_eq]
    exact ⟨fun ⟨h₁, h₂, h₃, h₄, h₅, h₆, h₇, h₈, h₉⟩ => ⟨h₁, h₂, h₃, h₄, h₅, h₆, h₇, h₈, h₉⟩,
      fun ⟨h₁, h₂, h₃, h₄, h₅, h₆, h₇, h₈, h₉⟩ => ⟨h₁, h₂, h₃, h₄, h₅, h₆, h₇, h₈, h₉⟩⟩
  rw [beq_iff, hframe, Metadata.beq_iff_same, AttrList.beq_iff_same ComponentDecl.beq_iff_same,
    Table.beq_iff_same FieldDecl.beq_iff_same, Table.beq_iff_same MethodDecl.beq_iff_same, same_iff]
  simp only [and_assoc]

/-- **A class is the same as itself exactly if there is no NaN in it.** -/
theorem same_self_iff (c : ClassDecl) : c.Same c ↔ c.NaNFree := by
  have hcomponents : c.components.Same ComponentDecl.Same c.components ↔
      ∀ d ∈ c.components.toList, d.metadata.Same d.metadata := by
    unfold AttrList.Same
    rw [List.forall₂_same]
    exact forall₂_congr fun d _ => d.same_self_iff
  have hmetadata : c.EveryMetadata (fun m => m.Same m) ↔
      c.EveryMetadata (·.EveryAnnot (Annot.EveryValue ElementValue.NotNaN)) :=
    forall₂_congr fun m _ => m.same_self_iff
  rw [same_iff, hcomponents, Table.same_self_iff, Table.same_self_iff,
    forall₂_congr fun f _ => FieldDecl.same_self_iff f,
    forall₂_congr fun m _ => MethodDecl.same_self_iff m]
  unfold NaNFree EveryValue
  rw [← hmetadata, everyMetadata_iff]
  have hmodule : Option.Rel ModuleDecl.Same c.moduleInfo c.moduleInfo :=
    (option_rel_self_iff ..).mpr fun m _ => m.same_self
  simp only [hmodule, true_and, forall_and]
  tauto

/-- **Equality is a partial equivalence with an exact domain**, on classes as on
annotations, element values and constants. It decides sameness, is symmetric and
transitive, and what it finds equal to itself are the things without a NaN, at any
depth. -/
theorem beq_is_partial_equivalence :
    Comparison ClassDecl Same NaNFree ∧
    Comparison Annot Annot.Same (Annot.EveryValue ElementValue.NotNaN) ∧
    Comparison ElementValue ElementValue.Same (ElementValue.Everywhere ElementValue.NotNaN) ∧
    Comparison Constant Constant.Same Constant.NotNaN := by
  refine ⟨comparison_of beq_iff_same same_self_iff,
    comparison_of Annot.beq_iff_same Annot.same_self_iff,
    comparison_of ElementValue.beq_iff_same ElementValue.same_self_iff,
    comparison_of Constant.beq_iff_same fun k => ?_⟩
  exact (k.beq_iff_same k).symm.trans k.beq_self_iff

end ClassDecl

end ClassTree

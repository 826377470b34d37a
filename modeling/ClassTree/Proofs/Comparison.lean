/-
# Comparing classes

The comparison of classes (`==`) is symmetric and transitive, but a class with a
NaN in it differs from itself. The laws go from floating-point constants up:
lists, options, pairs and tables of comparable things are comparable, and
everything else is compared part by part (`partialEquivBEq_of_beq_eq`). Values
nest, so theirs go by induction.

With symmetry, what the right side of a comparison does not read is not read on
either side: classes with the same contents compare the same
(`ClassDecl.beq_congr_contents`).
-/
import ClassTree.Proofs.Contents

namespace ClassTree

/-! ### Parts -/

section

variable {α : Type u} {β : Type v} [BEq α] [BEq β]

/-- What is compared by its parts is comparable if they are. -/
theorem partialEquivBEq_of_beq_eq [PartialEquivBEq β] (parts : α → β)
    (h : ∀ x y : α, (x == y) = (parts x == parts y)) : PartialEquivBEq α where
  symm {x y} hxy := by
    rw [h] at hxy ⊢
    exact BEq.symm hxy
  trans {x y z} hxy hyz := by
    rw [h] at hxy hyz ⊢
    exact BEq.trans hxy hyz

instance partialEquivBEq_prod [PartialEquivBEq α] [PartialEquivBEq β] : PartialEquivBEq (α × β) where
  symm {x y} hxy := by
    obtain ⟨h₁, h₂⟩ := Bool.and_eq_true_iff.mp hxy
    exact Bool.and_eq_true_iff.mpr ⟨BEq.symm h₁, BEq.symm h₂⟩
  trans {x y z} hxy hyz := by
    obtain ⟨h₁, h₂⟩ := Bool.and_eq_true_iff.mp hxy
    obtain ⟨h₁', h₂'⟩ := Bool.and_eq_true_iff.mp hyz
    exact Bool.and_eq_true_iff.mpr ⟨BEq.trans h₁ h₁', BEq.trans h₂ h₂'⟩

instance partialEquivBEq_option [PartialEquivBEq α] : PartialEquivBEq (Option α) where
  symm {x y} hxy := by
    cases x with
    | none => cases y with
      | none => rfl
      | some y => cases hxy
    | some x => cases y with
      | none => cases hxy
      | some y => exact BEq.symm (a := x) hxy
  trans {x y z} hxy hyz := by
    cases x with
    | none => cases y with
      | none => exact hyz
      | some y => cases hxy
    | some x => cases y with
      | none => cases hxy
      | some y => cases z with
        | none => cases hyz
        | some z => exact BEq.trans (a := x) hxy hyz

/-- Lists are compared the other way round if their entries are. -/
theorem list_beq_symm_of : ∀ {xs ys : List α},
    (∀ x ∈ xs, ∀ y, (x == y) = true → (y == x) = true) → (xs == ys) = true → (ys == xs) = true
  | [], [], _, _ => rfl
  | x :: xs, y :: ys, h, hxy => by
    obtain ⟨h₁, h₂⟩ := Bool.and_eq_true_iff.mp hxy
    have htail := list_beq_symm_of (fun z hz => h z (List.mem_cons_of_mem x hz)) h₂
    exact Bool.and_eq_true_iff.mpr ⟨h x List.mem_cons_self y h₁, htail⟩

theorem list_beq_trans_of : ∀ {xs ys zs : List α},
    (∀ x ∈ xs, ∀ y z, (x == y) = true → (y == z) = true → (x == z) = true) →
      (xs == ys) = true → (ys == zs) = true → (xs == zs) = true
  | [], [], _, _, _, hyz => hyz
  | x :: xs, y :: ys, z :: zs, h, hxy, hyz => by
    obtain ⟨h₁, h₂⟩ := Bool.and_eq_true_iff.mp hxy
    obtain ⟨h₁', h₂'⟩ := Bool.and_eq_true_iff.mp hyz
    have htail := list_beq_trans_of (fun w hw => h w (List.mem_cons_of_mem x hw)) h₂ h₂'
    exact Bool.and_eq_true_iff.mpr ⟨h x List.mem_cons_self y z h₁ h₁', htail⟩

instance partialEquivBEq_list [PartialEquivBEq α] : PartialEquivBEq (List α) where
  symm := list_beq_symm_of fun _ _ _ => BEq.symm
  trans := list_beq_trans_of fun _ _ _ _ => BEq.trans

instance [PartialEquivBEq α] : PartialEquivBEq (AttrList α) :=
  partialEquivBEq_of_beq_eq AttrList.toList fun _ _ => rfl

instance [PartialEquivBEq α] [PartialEquivBEq β] : PartialEquivBEq (Table α β) :=
  partialEquivBEq_of_beq_eq Table.entries fun _ _ => rfl

end

/-! ### Lists and tables -/

section

variable {α : Type u} {β : Type v} {γ : Type w} [BEq β] [BEq γ]

/-- Lists that are alike in one respect are alike in another if their entries
are. -/
theorem map_beq_map_of {f : α → β} {g : α → γ} : ∀ {xs ys : List α},
    (∀ x ∈ xs, ∀ y ∈ ys, (f x == f y) = true → (g x == g y) = true) →
      (xs.map f == ys.map f) = true → (xs.map g == ys.map g) = true
  | [], [], _, _ => rfl
  | x :: xs, y :: ys, hfg, h => by
    obtain ⟨h₁, h₂⟩ := Bool.and_eq_true_iff.mp h
    have htail := map_beq_map_of
      (fun z hz w hw => hfg z (List.mem_cons_of_mem x hz) w (List.mem_cons_of_mem y hw)) h₂
    exact Bool.and_eq_true_iff.mpr
      ⟨hfg x List.mem_cons_self y List.mem_cons_self h₁, htail⟩

variable [BEq α]

theorem map_beq_map {g : α → γ} {xs ys : List α}
    (hg : ∀ x ∈ xs, ∀ y ∈ ys, (x == y) = true → (g x == g y) = true)
    (h : (xs == ys) = true) : (xs.map g == ys.map g) = true := by
  refine map_beq_map_of (f := id) hg ?_
  rwa [List.map_id, List.map_id]

theorem beq_of_map_beq_map {f : α → β} {xs ys : List α}
    (hf : ∀ x ∈ xs, ∀ y ∈ ys, (f x == f y) = true → (x == y) = true)
    (h : (xs.map f == ys.map f) = true) : (xs == ys) = true := by
  have hid := map_beq_map_of (g := id) hf h
  rwa [List.map_id, List.map_id] at hid

theorem map_beq_map_iff (f : α → β) (hf : ∀ x y, (f x == f y) = (x == y)) (xs ys : List α) :
    (xs.map f == ys.map f) = true ↔ (xs == ys) = true :=
  ⟨beq_of_map_beq_map fun x _ y _ h => hf x y ▸ h, map_beq_map fun x _ y _ h => hf x y ▸ h⟩

theorem toList_beq_toList : ∀ x y : Option α, (x.toList == y.toList) = (x == y)
  | none, none | none, some _ | some _, none => rfl
  | some _, some _ => Bool.and_true _

theorem append_beq_append : ∀ {xs ys xs' ys' : List α},
    (xs == ys) = true → (xs' == ys') = true → (xs ++ xs' == ys ++ ys') = true
  | [], [], _, _, _, h' => h'
  | x :: xs, y :: ys, _, _, h, h' => by
    obtain ⟨h₁, h₂⟩ := Bool.and_eq_true_iff.mp h
    exact Bool.and_eq_true_iff.mpr ⟨h₁, append_beq_append h₂ h'⟩

/-- What comparisons respect can be filtered out on both sides. -/
theorem filter_beq_filter {p : α → Bool} (hp : ∀ x y : α, (x == y) = true → p x = p y) :
    ∀ {xs ys : List α}, (xs == ys) = true → (xs.filter p == ys.filter p) = true
  | [], [], _ => rfl
  | x :: xs, y :: ys, h => by
    obtain ⟨h₁, h₂⟩ := Bool.and_eq_true_iff.mp h
    have htail := filter_beq_filter hp h₂
    have hxy := hp x y h₁
    cases hy : p y with
    | false =>
      rw [hy] at hxy
      rwa [List.filter_cons_of_neg (by simp [hxy]), List.filter_cons_of_neg (by simp [hy])]
    | true =>
      rw [hy] at hxy
      rw [List.filter_cons_of_pos hxy, List.filter_cons_of_pos hy]
      exact Bool.and_eq_true_iff.mpr ⟨h₁, htail⟩

theorem beq_of_concat_beq_concat : ∀ {xs ys : List α} {x y : α},
    (xs ++ [x] == ys ++ [y]) = true → (xs == ys) = true
  | [], [], _, _, _ => rfl
  | [], y :: ys, _, _, h => by
    have hlen := List.length_eq_of_beq h
    simp at hlen
  | x :: xs, [], _, _, h => by
    have hlen := List.length_eq_of_beq h
    simp at hlen
  | x :: xs, y :: ys, _, _, h => by
    obtain ⟨h₁, h₂⟩ := Bool.and_eq_true_iff.mp h
    exact Bool.and_eq_true_iff.mpr ⟨h₁, beq_of_concat_beq_concat h₂⟩

/-- Equal ends can be left out of a comparison. -/
theorem concat_beq_concat_iff {x y : α} (hxy : (x == y) = true) (xs ys : List α) :
    (xs ++ [x] == ys ++ [y]) = true ↔ (xs == ys) = true :=
  ⟨beq_of_concat_beq_concat,
    fun h => append_beq_append h (Bool.and_eq_true_iff.mpr ⟨hxy, rfl⟩)⟩

theorem isEmpty_eq_of_beq : ∀ {xs ys : List α}, (xs == ys) = true →
    xs.isEmpty = ys.isEmpty
  | [], [], _ => rfl
  | _ :: _, _ :: _, _ => rfl

theorem isSome_eq_of_beq : ∀ {x y : Option α}, (x == y) = true →
    x.isSome = y.isSome
  | none, none, _ => rfl
  | some _, some _, _ => rfl

theorem map_eq_map_of_beq {δ : Type x} {f : α → δ}
    (hf : ∀ x y : α, (x == y) = true → f x = f y) : ∀ {xs ys : List α}, (xs == ys) = true →
      xs.map f = ys.map f
  | [], [], _ => rfl
  | x :: xs, y :: ys, h => by
    obtain ⟨h₁, h₂⟩ := Bool.and_eq_true_iff.mp h
    rw [List.map_cons, List.map_cons, hf x y h₁, map_eq_map_of_beq hf h₂]

end

namespace Table

variable {κ : Type u} {ν : Type v} [BEq κ] [BEq ν]

theorem values_beq_values {s t : Table κ ν} (h : (s == t) = true) :
    (s.values == t.values) = true :=
  map_beq_map (fun _ _ _ _ h => (Bool.and_eq_true_iff.mp h).2) h

/-- Tables whose entries stand under their own keys are equal if their values
are alike in a respect that tells values and keys apart. -/
theorem KeyedBy.beq_of_values [LawfulBEq κ] {β : Type w} [BEq β] {key : ν → κ} {f : ν → β}
    {s t : Table κ ν} (hs : s.KeyedBy key) (ht : t.KeyedBy key)
    (hf : ∀ x ∈ s.values, ∀ y ∈ t.values, (f x == f y) = true → key x = key y ∧ (x == y) = true)
    (h : (s.values.map f == t.values.map f) = true) : (s == t) = true := by
  rw [values_eq, values_eq, List.map_map, List.map_map] at h
  have hentries : (s.entries == t.entries) = true := by
    refine beq_of_map_beq_map (fun e he e' he' hee' => ?_) h
    obtain ⟨hkey, hvalue⟩ := hf e.2 (List.mem_map_of_mem he) e'.2 (List.mem_map_of_mem he') hee'
    refine Bool.and_eq_true_iff.mpr ⟨beq_iff_eq.mpr ?_, hvalue⟩
    rw [hs e he, ht e' he', hkey]
  exact hentries

end Table

/-! ### Constants and values -/

/-- Numbers: nothing equals a NaN, all zeros are equal, and otherwise equal
numbers are the same. -/
theorem partialEquivBEq_of_numbers {α : Type u} [BEq α] (nan zero : α → Bool)
    (h : ∀ x y : α, (x == y) = true ↔
      nan x = false ∧ nan y = false ∧ (x = y ∨ zero x = true ∧ zero y = true)) :
    PartialEquivBEq α where
  symm {x y} hxy := by
    obtain ⟨hx, hy, heq⟩ := (h x y).mp hxy
    exact (h y x).mpr ⟨hy, hx, heq.imp Eq.symm And.symm⟩
  trans {x y z} hxy hyz := by
    obtain ⟨hx, -, heq⟩ := (h x y).mp hxy
    obtain ⟨-, hz, heq'⟩ := (h y z).mp hyz
    refine (h x z).mpr ⟨hx, hz, ?_⟩
    obtain rfl | ⟨hx₀, hy₀⟩ := heq
    · exact heq'
    · obtain rfl | ⟨-, hz₀⟩ := heq'
      · exact .inr ⟨hx₀, hy₀⟩
      · exact .inr ⟨hx₀, hz₀⟩

theorem Binary32.beq_iff (x y : Binary32) : (x == y) = true ↔
    x.isNaN = false ∧ y.isNaN = false ∧ (x = y ∨ x.isZero = true ∧ y.isZero = true) := by
  have hbits : x.bits = y.bits ↔ x = y := ⟨fun h => congrArg Binary32.mk h, fun h => h ▸ rfl⟩
  show (!x.isNaN && !y.isNaN && (x.bits == y.bits || x.isZero && y.isZero)) = true ↔ _
  simp only [Bool.and_eq_true, Bool.or_eq_true, Bool.not_eq_true', beq_iff_eq, hbits, and_assoc]

theorem Binary64.beq_iff (x y : Binary64) : (x == y) = true ↔
    x.isNaN = false ∧ y.isNaN = false ∧ (x = y ∨ x.isZero = true ∧ y.isZero = true) := by
  have hbits : x.bits = y.bits ↔ x = y := ⟨fun h => congrArg Binary64.mk h, fun h => h ▸ rfl⟩
  show (!x.isNaN && !y.isNaN && (x.bits == y.bits || x.isZero && y.isZero)) = true ↔ _
  simp only [Bool.and_eq_true, Bool.or_eq_true, Bool.not_eq_true', beq_iff_eq, hbits, and_assoc]

instance : PartialEquivBEq Binary32 := partialEquivBEq_of_numbers _ _ Binary32.beq_iff

instance : PartialEquivBEq Binary64 := partialEquivBEq_of_numbers _ _ Binary64.beq_iff

theorem Constant.beq_symm (k l : Constant) (h : (k == l) = true) : (l == k) = true := by
  cases k with
  | float x | double x =>
    cases l <;> first
      | exact absurd h Bool.false_ne_true
      | exact BEq.symm (a := x) h
  | int n | long n | string n =>
    cases l <;> first
      | exact absurd h Bool.false_ne_true
      | obtain rfl := eq_of_beq (a := n) h
        exact h

theorem Constant.beq_trans (k l m : Constant) (h : (k == l) = true) (h' : (l == m) = true) :
    (k == m) = true := by
  cases k with
  | float x | double x =>
    cases l <;> first
      | exact absurd h Bool.false_ne_true
      | cases m <;> first
        | exact absurd h' Bool.false_ne_true
        | exact BEq.trans (a := x) h h'
  | int n | long n | string n =>
    cases l <;> first
      | exact absurd h Bool.false_ne_true
      | obtain rfl := eq_of_beq (a := n) h
        exact h'

instance : PartialEquivBEq Constant := ⟨Constant.beq_symm _ _, Constant.beq_trans _ _ _⟩

namespace ElementValue

theorem beq_symm (v : ElementValue) : ∀ w, (v == w) = true → (w == v) = true := by
  induction v using ElementValue.induct with
  | annot a ih =>
    intro w h
    cases w with
    | annot b =>
      rw [annot_beq_annot] at h ⊢
      obtain ⟨hhead, helements⟩ := Bool.and_eq_true_iff.mp h
      obtain ⟨hd, hv⟩ := Bool.and_eq_true_iff.mp hhead
      have hentries : (b.elements.entries == a.elements.entries) = true := by
        refine list_beq_symm_of (fun e he e' h => ?_) helements
        obtain ⟨h₁, h₂⟩ := Bool.and_eq_true_iff.mp h
        exact Bool.and_eq_true_iff.mpr ⟨BEq.symm h₁, ih e he e'.2 h₂⟩
      exact Bool.and_eq_true_iff.mpr
        ⟨Bool.and_eq_true_iff.mpr ⟨BEq.symm hd, BEq.symm hv⟩, hentries⟩
    | _ => exact absurd h Bool.false_ne_true
  | array r ih =>
    intro w h
    cases w with
    | array s =>
      rw [array_beq_array] at h ⊢
      exact list_beq_symm_of ih h
    | _ => exact absurd h Bool.false_ne_true
  | float x | double x =>
    intro w h
    cases w <;> first
      | exact absurd h Bool.false_ne_true
      | exact BEq.symm (a := x) h
  | enum d c =>
    intro w h
    cases w with
    | enum d' c' => exact BEq.symm (a := (d, c)) (b := (d', c')) h
    | _ => exact absurd h Bool.false_ne_true
  | byte n | boolean n | char n | short n | int n | long n | string n | classLiteral n =>
    intro w h
    cases w <;> first
      | exact absurd h Bool.false_ne_true
      | obtain rfl := eq_of_beq (a := n) h
        exact h

theorem beq_trans (v : ElementValue) :
    ∀ w u, (v == w) = true → (w == u) = true → (v == u) = true := by
  induction v using ElementValue.induct with
  | annot a ih =>
    intro w u h h'
    cases w with
    | annot b =>
      cases u with
      | annot c =>
        rw [annot_beq_annot] at h h' ⊢
        obtain ⟨hhead, helements⟩ := Bool.and_eq_true_iff.mp h
        obtain ⟨hhead', helements'⟩ := Bool.and_eq_true_iff.mp h'
        have hentries : (a.elements.entries == c.elements.entries) = true := by
          refine list_beq_trans_of (fun e he e' e'' h h' => ?_) helements helements'
          obtain ⟨h₁, h₂⟩ := Bool.and_eq_true_iff.mp h
          obtain ⟨h₁', h₂'⟩ := Bool.and_eq_true_iff.mp h'
          exact Bool.and_eq_true_iff.mpr ⟨BEq.trans h₁ h₁', ih e he e'.2 e''.2 h₂ h₂'⟩
        have hheads : ((a.descriptor, a.visible) == (c.descriptor, c.visible)) = true :=
          BEq.trans (b := (b.descriptor, b.visible)) hhead hhead'
        exact Bool.and_eq_true_iff.mpr ⟨hheads, hentries⟩
      | _ => exact absurd h' Bool.false_ne_true
    | _ => exact absurd h Bool.false_ne_true
  | array r ih =>
    intro w u h h'
    cases w with
    | array s =>
      cases u with
      | array t =>
        rw [array_beq_array] at h h' ⊢
        exact list_beq_trans_of ih h h'
      | _ => exact absurd h' Bool.false_ne_true
    | _ => exact absurd h Bool.false_ne_true
  | float x | double x =>
    intro w u h h'
    cases w <;> first
      | exact absurd h Bool.false_ne_true
      | cases u <;> first
        | exact absurd h' Bool.false_ne_true
        | exact BEq.trans (a := x) h h'
  | enum d c =>
    intro w u h h'
    cases w with
    | enum d' c' =>
      obtain ⟨hd, hc⟩ := Bool.and_eq_true_iff.mp h
      obtain rfl := eq_of_beq hd
      obtain rfl := eq_of_beq hc
      exact h'
    | _ => exact absurd h Bool.false_ne_true
  | byte n | boolean n | char n | short n | int n | long n | string n | classLiteral n =>
    intro w u h h'
    cases w <;> first
      | exact absurd h Bool.false_ne_true
      | obtain rfl := eq_of_beq (a := n) h
        exact h'

instance : PartialEquivBEq ElementValue := ⟨beq_symm _ _, beq_trans _ _ _⟩

end ElementValue

/-! ### Annotations, members and classes

Each is compared by the parts that its own comparison lists. -/

instance [BEq ν] [PartialEquivBEq ν] : PartialEquivBEq (AnnotOf ν) :=
  partialEquivBEq_of_beq_eq (fun a => ((a.descriptor, a.visible), a.elements)) fun _ _ => rfl

theorem Annot.beq_iff (a b : Annot) : (a == b) = true ↔
    a.descriptor = b.descriptor ∧ a.visible = b.visible ∧ (a.elements == b.elements) = true := by
  show (a.descriptor == b.descriptor && a.visible == b.visible && a.elements == b.elements) = true ↔ _
  simp only [Bool.and_eq_true, beq_iff_eq, and_assoc]

instance [BEq ν] [PartialEquivBEq ν] : PartialEquivBEq (ArrayOf ν) :=
  partialEquivBEq_of_beq_eq ArrayOf.items fun _ _ => rfl

instance : PartialEquivBEq TypeAnnot :=
  partialEquivBEq_of_beq_eq (fun a => ((a.typeRef, a.typePath), a.annot)) fun _ _ => rfl

theorem TypeAnnot.beq_iff (a b : TypeAnnot) : (a == b) = true ↔
    a.typeRef = b.typeRef ∧ a.typePath = b.typePath ∧ (a.annot == b.annot) = true := by
  show (a.typeRef == b.typeRef && a.typePath == b.typePath && a.annot == b.annot) = true ↔ _
  simp only [Bool.and_eq_true, beq_iff_eq, and_assoc]

instance : PartialEquivBEq Metadata :=
  partialEquivBEq_of_beq_eq
    (fun m => (((m.annots, m.visibleTypeAnnots), m.invisibleTypeAnnots), m.extensions))
    fun _ _ => rfl

theorem Metadata.beq_iff (m n : Metadata) : (m == n) = true ↔
    (m.annots == n.annots) = true ∧ (∀ visible, (m.typeAnnots visible == n.typeAnnots visible) = true) ∧
      (m.extensions == n.extensions) = true := by
  show (m.annots == n.annots && m.typeAnnots true == n.typeAnnots true &&
    m.typeAnnots false == n.typeAnnots false && m.extensions == n.extensions) = true ↔ _
  simp only [Bool.and_eq_true, Bool.forall_bool]
  tauto

instance : PartialEquivBEq ComponentDecl :=
  partialEquivBEq_of_beq_eq (fun c => (c.toComponentHead, c.metadata)) fun _ _ => rfl

theorem ComponentDecl.beq_iff (c d : ComponentDecl) : (c == d) = true ↔
    c.toComponentHead = d.toComponentHead ∧ (c.metadata == d.metadata) = true := by
  show (c.toComponentHead == d.toComponentHead && c.metadata == d.metadata) = true ↔ _
  rw [Bool.and_eq_true, beq_iff_eq]

instance : PartialEquivBEq FieldHead :=
  partialEquivBEq_of_beq_eq
    (fun h => ((((h.access, h.name), h.descriptor), h.signature), h.value)) fun _ _ => rfl

theorem FieldHead.name_eq_of_beq {h h' : FieldHead} (hh : (h == h') = true) : h.name = h'.name := by
  have hparts : (h.access == h'.access && h.name == h'.name && h.descriptor == h'.descriptor &&
    h.signature == h'.signature && h.value == h'.value) = true := hh
  simp only [Bool.and_eq_true, beq_iff_eq] at hparts
  exact hparts.1.1.1.2

instance : PartialEquivBEq FieldDecl :=
  partialEquivBEq_of_beq_eq (fun f => (f.toFieldHead, f.metadata)) fun _ _ => rfl

theorem FieldDecl.beq_iff (f g : FieldDecl) : (f == g) = true ↔
    (f.toFieldHead == g.toFieldHead) = true ∧ (f.metadata == g.metadata) = true :=
  Bool.and_eq_true_iff

instance : PartialEquivBEq Code := partialEquivBEq_of_beq_eq Code.id fun _ _ => rfl

instance : PartialEquivBEq MethodDecl :=
  partialEquivBEq_of_beq_eq
    (fun m => ((((m.toMethodHead, m.parameters), m.annotDefault), m.metadata), m.code))
    fun _ _ => rfl

theorem MethodDecl.beq_iff (m n : MethodDecl) : (m == n) = true ↔
    m.toMethodHead = n.toMethodHead ∧ (m.parameters == n.parameters) = true ∧
      (m.annotDefault == n.annotDefault) = true ∧ (m.metadata == n.metadata) = true ∧
      (m.code == n.code) = true := by
  show (m.toMethodHead == n.toMethodHead && m.parameters == n.parameters &&
    m.annotDefault == n.annotDefault && m.metadata == n.metadata && m.code == n.code) = true ↔ _
  simp only [Bool.and_eq_true, beq_iff_eq, and_assoc]

instance : PartialEquivBEq ModuleDecl :=
  partialEquivBEq_of_beq_eq
    (fun m => (((((((m.toModuleHead, m.mainClass), m.packages), m.requires), m.exports), m.opens),
      m.uses), m.provides)) fun _ _ => rfl

namespace ClassDecl

instance : PartialEquivBEq ClassDecl :=
  partialEquivBEq_of_beq_eq
    (fun c => ((((((((((((c.toClassHeader, c.sourceFile), c.sourceDebug), c.moduleInfo),
      c.outerClass), c.nestHost), c.metadata), c.nestMembers), c.permittedSubtypes),
      c.innerClasses), c.components), c.fields), c.methods)) fun _ _ => rfl

/-- The classes agree apart from their metadata and their members. -/
structure SameFrame (a b : ClassDecl) : Prop where
  header : a.toClassHeader = b.toClassHeader
  sourceFile : a.sourceFile = b.sourceFile
  sourceDebug : a.sourceDebug = b.sourceDebug
  moduleInfo : (a.moduleInfo == b.moduleInfo) = true
  nestHost : a.nestHost = b.nestHost
  outerClass : a.outerClass = b.outerClass
  nestMembers : (a.nestMembers == b.nestMembers) = true
  permittedSubtypes : (a.permittedSubtypes == b.permittedSubtypes) = true
  innerClasses : a.innerClasses = b.innerClasses

theorem beq_iff (a b : ClassDecl) : (a == b) = true ↔
    a.SameFrame b ∧ (a.metadata == b.metadata) = true ∧ (a.components == b.components) = true ∧
      (a.fields == b.fields) = true ∧ (a.methods == b.methods) = true := by
  show (a.toClassHeader == b.toClassHeader && a.sourceFile == b.sourceFile &&
    a.sourceDebug == b.sourceDebug && a.moduleInfo == b.moduleInfo &&
    a.outerClass == b.outerClass && a.nestHost == b.nestHost && a.metadata == b.metadata &&
    a.nestMembers == b.nestMembers && a.permittedSubtypes == b.permittedSubtypes &&
    a.innerClasses == b.innerClasses && a.components == b.components && a.fields == b.fields &&
    a.methods == b.methods) = true ↔ _
  simp only [Bool.and_eq_true, beq_iff_eq, and_assoc]
  constructor
  · rintro ⟨hheader, hfile, hdebug, hmodule, houter, hhost, hmetadata, hnest, hpermitted, hinner,
      hcomponents, hfields, hmethods⟩
    exact ⟨⟨hheader, hfile, hdebug, hmodule, hhost, houter, hnest, hpermitted, hinner⟩, hmetadata,
      hcomponents, hfields, hmethods⟩
  · rintro ⟨h, hmetadata, hcomponents, hfields, hmethods⟩
    exact ⟨h.header, h.sourceFile, h.sourceDebug, h.moduleInfo, h.outerClass, h.nestHost, hmetadata,
      h.nestMembers, h.permittedSubtypes, h.innerClasses, hcomponents, hfields, hmethods⟩

/-- Classes compare as their contents do, on either side. -/
theorem beq_congr_contents {a b c d : ClassDecl} (hab : a.contents = b.contents)
    (hcd : c.contents = d.contents) : (a == c) = (b == d) := by
  calc (a == c) = (a == d) := by rw [← beq_contents a c, hcd, beq_contents]
    _ = (d == a) := BEq.comm
    _ = (d == b) := by rw [← beq_contents d a, hab, beq_contents]
    _ = (b == d) := BEq.comm

end ClassDecl

end ClassTree

/-
# Replays section by section

Two event trees are compared (`==`) node by node: constants and values as they
are compared in a class, body handles by the body they stand for.

A replay lists its sections in a fixed order and no event fits in two of them,
so two replays are equal exactly when they are equal section by section
(`flatten_beq_flatten`). This holds at every level: metadata, methods, modules
and classes (`Metadata.events_beq_iff`, `MethodDecl.event_beq_iff`,
`ModuleDecl.event_beq_iff`, `ClassDecl.events_beq_iff`).

Key definitions: `ElementEvent.beq`, `MemberEvent.beq`, `MethodEvent.beq`,
`ClassEvent.beq`, `Ranked`.
-/
import ClassTree.Proofs.Comparison

namespace ClassTree

/-! ### Event trees -/

namespace ElementEvent

mutual

/-- Events of one kind are compared by their arguments and their interiors. -/
def beq : ElementEvent → ElementEvent → Bool
  | .value n v, .value n' v' => n == n' && v == v'
  | .enum n d c, .enum n' d' c' => n == n' && d == d' && c == c'
  | .annot n d body, .annot n' d' body' => n == n' && d == d' && beqAll body body'
  | .array n body, .array n' body' => n == n' && beqAll body body'
  | .finish, .finish => true
  | _, _ => false

/-- Sequences are compared in order. -/
def beqAll : List ElementEvent → List ElementEvent → Bool
  | [], [] => true
  | e :: es, e' :: es' => beq e e' && beqAll es es'
  | _, _ => false

end

instance : BEq ElementEvent := ⟨beq⟩

theorem beqAll_eq : ∀ es es' : List ElementEvent, beqAll es es' = (es == es')
  | [], [] | [], _ :: _ | _ :: _, [] => rfl
  | _ :: es, _ :: es' => by rw [beqAll, beqAll_eq es es']; rfl

theorem annot_beq_annot (n n' d d' : String) (body body' : List ElementEvent) :
    (annot n d body == annot n' d' body') = (n == n' && d == d' && body == body') := by
  rw [← beqAll_eq]
  rfl

theorem array_beq_array (n n' : String) (body body' : List ElementEvent) :
    (array n body == array n' body') = (n == n' && body == body') := by
  rw [← beqAll_eq]
  rfl

end ElementEvent

/-- Events of one kind are compared by their arguments and their interiors. -/
def MemberEvent.beq : MemberEvent → MemberEvent → Bool
  | .annot d v body, .annot d' v' body' => d == d' && v == v' && body == body'
  | .typeAnnot r p d v body, .typeAnnot r' p' d' v' body' =>
    r == r' && p == p' && d == d' && v == v' && body == body'
  | .extension x, .extension x' => x == x'
  | .finish, .finish => true
  | _, _ => false

instance : BEq MemberEvent := ⟨MemberEvent.beq⟩

/-- Body handles are compared by the body that they stand for. -/
def MethodEvent.beq : MethodEvent → MethodEvent → Bool
  | .member e, .member e' => e == e'
  | .parameter p, .parameter p' => p == p'
  | .annotDefault body, .annotDefault body' => body == body'
  | .code c, .code c' => c == c'
  | _, _ => false

instance : BEq MethodEvent := ⟨MethodEvent.beq⟩

/-- Events of one kind are compared by their arguments and their interiors. -/
def ClassEvent.beq : ClassEvent → ClassEvent → Bool
  | .header h, .header h' => h == h'
  | .source f d, .source f' d' => f == f' && d == d'
  | .moduleInfo h body, .moduleInfo h' body' => h == h' && body == body'
  | .nestHost n, .nestHost n' => n == n'
  | .outerClass o, .outerClass o' => o == o'
  | .member e, .member e' => e == e'
  | .nestMember n, .nestMember n' => n == n'
  | .permittedSubtype n, .permittedSubtype n' => n == n'
  | .innerClass i, .innerClass i' => i == i'
  | .component h body, .component h' body' => h == h' && body == body'
  | .field h body, .field h' body' => h == h' && body == body'
  | .method h body, .method h' body' => h == h' && body == body'
  | _, _ => false

instance : BEq ClassEvent := ⟨ClassEvent.beq⟩

/-! ### Ranked lists -/

section

variable {α : Type u}

/-- The first list has entries of rank `n` only, the second of the next rank,
and so on. -/
def Ranked (rank : α → Nat) : Nat → List (List α) → Prop
  | _, [] => True
  | n, xs :: xss => (∀ x ∈ xs, rank x = n) ∧ Ranked rank (n + 1) xss

theorem Ranked.le {rank : α → Nat} {x : α} : ∀ {xss : List (List α)} {n : Nat},
    Ranked rank n xss → x ∈ xss.flatten → n ≤ rank x
  | xs :: xss, n, h, hx => by
    obtain hx | hx := List.mem_append.mp (List.flatten_cons ▸ hx)
    · exact Nat.le_of_eq (h.1 x hx).symm
    · exact Nat.le_of_succ_le (h.2.le hx)

/-- The entries of the first rank are the first list, those above are the rest. -/
theorem Ranked.filter_flatten {rank : α → Nat} {n : Nat} {xs : List α} {xss : List (List α)}
    (h : Ranked rank n (xs :: xss)) :
    ((xs :: xss).flatten.filter fun x => rank x = n) = xs ∧
      ((xs :: xss).flatten.filter fun x => n < rank x) = xss.flatten := by
  have htail : ∀ x ∈ xss.flatten, n < rank x := fun x hx => h.2.le hx
  rw [List.flatten_cons, List.filter_append, List.filter_append]
  constructor
  · rw [List.filter_eq_self.mpr, List.filter_eq_nil_iff.mpr, List.append_nil]
    · intro x hx
      simp [Nat.ne_of_gt (htail x hx)]
    · intro x hx
      simp [h.1 x hx]
  · rw [List.filter_eq_nil_iff.mpr, List.filter_eq_self.mpr, List.nil_append]
    · intro x hx
      simp [htail x hx]
    · intro x hx
      simp [h.1 x hx]

variable [BEq α]

/-- **Ranked lists are equal in a row exactly when they are equal one by one.** -/
theorem flatten_beq_flatten {rank : α → Nat}
    (hrank : ∀ x y : α, (x == y) = true → rank x = rank y) : ∀ {xss yss : List (List α)} {n : Nat},
    Ranked rank n xss → Ranked rank n yss → xss.length = yss.length →
      ((xss.flatten == yss.flatten) = true ↔ (xss == yss) = true)
  | [], [], _, _, _, _ => Iff.rfl
  | xs :: xss, ys :: yss, n, hx, hy, hlen => by
    have htail := flatten_beq_flatten hrank hx.2 hy.2 (Nat.succ.inj hlen)
    constructor
    · intro h
      have hhead := filter_beq_filter (p := fun x => rank x = n)
        (fun x y hxy => by rw [hrank x y hxy]) h
      have hrest := filter_beq_filter (p := fun x => n < rank x)
        (fun x y hxy => by rw [hrank x y hxy]) h
      rw [hx.filter_flatten.1, hy.filter_flatten.1] at hhead
      rw [hx.filter_flatten.2, hy.filter_flatten.2] at hrest
      exact Bool.and_eq_true_iff.mpr ⟨hhead, htail.mp hrest⟩
    · intro h
      obtain ⟨h₁, h₂⟩ := Bool.and_eq_true_iff.mp h
      exact append_beq_append h₁ (htail.mpr h₂)

end

/-! ### Metadata -/

/-- The place of an event among the sections of metadata. -/
def MemberEvent.place : MemberEvent → Nat
  | .annot _ _ _ => 0
  | .typeAnnot _ _ _ true _ => 1
  | .typeAnnot _ _ _ false _ => 2
  | .extension _ => 3
  | .finish => 4

theorem MemberEvent.place_eq_of_beq (e e' : MemberEvent) (h : (e == e') = true) :
    e.place = e'.place := by
  cases e with
  | typeAnnot r p d v body =>
    cases e' with
    | typeAnnot r' p' d' v' body' =>
      have hv : (v == v') = true :=
        (Bool.and_eq_true_iff.mp (Bool.and_eq_true_iff.mp h).1).2
      obtain rfl := eq_of_beq hv
      cases v <;> rfl
    | _ => exact absurd h Bool.false_ne_true
  | _ =>
    cases e' <;> first
      | exact absurd h Bool.false_ne_true
      | rfl

namespace Metadata

/-- The events of metadata, section by section. -/
def sections (m : Metadata) : List (List MemberEvent) :=
  [m.annots.values.map annotEvent,
   (m.typeAnnots true).toList.map (typeAnnotEvent true),
   (m.typeAnnots false).toList.map (typeAnnotEvent false),
   m.extensions.toList.map .extension]

theorem flatten_sections (m : Metadata) : m.sections.flatten = m.events := by
  simp [sections, events, typeAnnots]

theorem ranked_sections (m : Metadata) : Ranked MemberEvent.place 0 m.sections := by
  simp [sections, Ranked, MemberEvent.place, annotEvent, typeAnnotEvent]

theorem events_beq_iff (m n : Metadata) : (m.events == n.events) = true ↔
    (m.annots.values.map annotEvent == n.annots.values.map annotEvent) = true ∧
      (∀ visible, ((m.typeAnnots visible).toList.map (typeAnnotEvent visible) ==
        (n.typeAnnots visible).toList.map (typeAnnotEvent visible)) = true) ∧
      (m.extensions == n.extensions) = true := by
  have hext : (m.extensions.toList.map MemberEvent.extension ==
      n.extensions.toList.map MemberEvent.extension) = true ↔ (m.extensions == n.extensions) = true :=
    map_beq_map_iff MemberEvent.extension (fun _ _ => rfl) ..
  rw [← m.flatten_sections, ← n.flatten_sections,
    flatten_beq_flatten MemberEvent.place_eq_of_beq m.ranked_sections n.ranked_sections rfl]
  simp only [sections, List.cons_beq_cons, Bool.and_eq_true, hext, Bool.forall_bool,
    List.beq_nil_eq, List.isEmpty_nil, and_true]
  tauto

theorem finish_not_mem_events (m : Metadata) : ∀ e ∈ m.events, e ≠ .finish := by
  simp only [events, List.forall_mem_append, List.forall_mem_map]
  simp [annotEvent, typeAnnotEvent]

theorem annotEvent_beq_iff (a b : Annot) : (annotEvent a == annotEvent b) = true ↔
    a.descriptor = b.descriptor ∧ a.visible = b.visible ∧
      (Annot.events a == Annot.events b) = true := by
  show (a.descriptor == b.descriptor && a.visible == b.visible &&
    Annot.events a == Annot.events b) = true ↔ _
  simp only [Bool.and_eq_true, beq_iff_eq, and_assoc]

theorem typeAnnotEvent_beq_iff (visible : Bool) (a b : TypeAnnot) :
    (typeAnnotEvent visible a == typeAnnotEvent visible b) = true ↔
      a.typeRef = b.typeRef ∧ a.typePath = b.typePath ∧ a.annot.descriptor = b.annot.descriptor ∧
        (Annot.events a.annot == Annot.events b.annot) = true := by
  show (a.typeRef == b.typeRef && a.typePath == b.typePath &&
    a.annot.descriptor == b.annot.descriptor && visible == visible &&
    Annot.events a.annot == Annot.events b.annot) = true ↔ _
  simp only [Bool.and_eq_true, beq_iff_eq, and_assoc, true_and]

end Metadata

/-! ### Members and modules -/

theorem ComponentDecl.event_beq_iff (c d : ComponentDecl) : (c.event == d.event) = true ↔
    c.toComponentHead = d.toComponentHead ∧ (c.metadata.events == d.metadata.events) = true := by
  show (c.toComponentHead == d.toComponentHead && c.metadata.events ++ [.finish] ==
    d.metadata.events ++ [.finish]) = true ↔ _
  rw [Bool.and_eq_true, beq_iff_eq]
  exact and_congr_right fun _ => concat_beq_concat_iff rfl ..

theorem FieldDecl.event_beq_iff (f g : FieldDecl) : (f.event == g.event) = true ↔
    (f.toFieldHead == g.toFieldHead) = true ∧ (f.metadata.events == g.metadata.events) = true := by
  show (f.toFieldHead == g.toFieldHead && f.metadata.events ++ [.finish] ==
    g.metadata.events ++ [.finish]) = true ↔ _
  rw [Bool.and_eq_true]
  exact and_congr_right fun _ => concat_beq_concat_iff rfl ..

/-- The place of an event among the sections of a method. -/
def MethodEvent.place : MethodEvent → Nat
  | .parameter _ => 0
  | .annotDefault _ => 1
  | .member .finish => 4
  | .member _ => 2
  | .code _ => 3

theorem MethodEvent.place_eq_of_beq (e e' : MethodEvent) (h : (e == e') = true) :
    e.place = e'.place := by
  cases e with
  | member e =>
    cases e' with
    | member e' =>
      cases e <;> cases e' <;> first
        | exact absurd h Bool.false_ne_true
        | rfl
    | _ => exact absurd h Bool.false_ne_true
  | _ =>
    cases e' <;> first
      | exact absurd h Bool.false_ne_true
      | rfl

theorem MethodEvent.place_member {e : MemberEvent} (h : e ≠ .finish) : (member e).place = 2 := by
  cases e with
  | finish => exact absurd rfl h
  | _ => rfl

namespace MethodDecl

/-- The interior of a method, section by section. -/
def sections (m : MethodDecl) : List (List MethodEvent) :=
  [m.parameters.toList.map .parameter,
   m.annotDefault.toList.map fun r => .annotDefault (ValueArray.events r),
   m.metadata.events.map .member,
   m.code.toList.map .code,
   [.member .finish]]

theorem flatten_sections (m : MethodDecl) : m.sections.flatten = m.body := by
  simp [sections, body, Option.toList_map]

theorem ranked_sections (m : MethodDecl) : Ranked MethodEvent.place 0 m.sections := by
  have hmember : ∀ e ∈ m.metadata.events, (MethodEvent.member e).place = 2 :=
    fun e he => MethodEvent.place_member (m.metadata.finish_not_mem_events e he)
  simpa [sections, Ranked, MethodEvent.place] using hmember

theorem event_beq_iff (m n : MethodDecl) : (m.event == n.event) = true ↔
    m.toMethodHead = n.toMethodHead ∧ (m.parameters == n.parameters) = true ∧
      (m.annotDefault.toList.map ValueArray.events ==
        n.annotDefault.toList.map ValueArray.events) = true ∧
      (m.metadata.events == n.metadata.events) = true ∧ (m.code == n.code) = true := by
  have hparameters : (m.parameters.toList.map MethodEvent.parameter ==
      n.parameters.toList.map MethodEvent.parameter) = true ↔ (m.parameters == n.parameters) = true :=
    map_beq_map_iff MethodEvent.parameter (fun _ _ => rfl) ..
  have hdefault : (m.annotDefault.toList.map (fun r => MethodEvent.annotDefault (ValueArray.events r)) ==
      n.annotDefault.toList.map fun r => MethodEvent.annotDefault (ValueArray.events r)) = true ↔
        (m.annotDefault.toList.map ValueArray.events ==
          n.annotDefault.toList.map ValueArray.events) = true :=
    ⟨map_beq_map_of fun _ _ _ _ h => h, map_beq_map_of fun _ _ _ _ h => h⟩
  have hmembers : (m.metadata.events.map MethodEvent.member ==
      n.metadata.events.map MethodEvent.member) = true ↔
        (m.metadata.events == n.metadata.events) = true :=
    map_beq_map_iff MethodEvent.member (fun _ _ => rfl) ..
  have hcode : (m.code.toList.map MethodEvent.code == n.code.toList.map MethodEvent.code) = true ↔
      (m.code == n.code) = true := by
    rw [map_beq_map_iff MethodEvent.code fun _ _ => rfl, toList_beq_toList]
  have hfinish : (MethodEvent.member .finish == MethodEvent.member .finish) = true := rfl
  show (m.toMethodHead == n.toMethodHead && m.body == n.body) = true ↔ _
  rw [Bool.and_eq_true, beq_iff_eq, ← m.flatten_sections, ← n.flatten_sections,
    flatten_beq_flatten MethodEvent.place_eq_of_beq m.ranked_sections n.ranked_sections rfl]
  simp only [sections, List.cons_beq_cons, Bool.and_eq_true, hparameters, hdefault, hmembers, hcode,
    hfinish, List.beq_nil_eq, List.isEmpty_nil, and_true]

end MethodDecl

/-- The place of an event among the directives of a module. -/
def ModuleEvent.place : ModuleEvent → Nat
  | .mainClass _ => 0
  | .package _ => 1
  | .requires _ => 2
  | .exports _ => 3
  | .opens _ => 4
  | .uses _ => 5
  | .provides _ => 6
  | .finish => 7

namespace ModuleDecl

/-- The directives of a module, section by section. -/
def sections (m : ModuleDecl) : List (List ModuleEvent) :=
  [m.mainClass.toList.map .mainClass,
   m.packages.toList.map .package,
   m.requires.toList.map .requires,
   m.exports.toList.map .exports,
   m.opens.toList.map .opens,
   m.uses.toList.map .uses,
   m.provides.toList.map .provides,
   [.finish]]

theorem flatten_sections (m : ModuleDecl) : m.sections.flatten = m.body := by
  simp [sections, body, Option.toList_map]

theorem ranked_sections (m : ModuleDecl) : Ranked ModuleEvent.place 0 m.sections := by
  simp [sections, Ranked, ModuleEvent.place]

/-- A module can be read off its event. -/
theorem event_beq_iff (m n : ModuleDecl) : (m.event == n.event) = true ↔ (m == n) = true := by
  have hmap : ∀ {α : Type} [BEq α] [LawfulBEq α] (directive : α → ModuleEvent),
      (∀ {x y}, directive x = directive y → x = y) → ∀ xs ys : List α,
        (xs.map directive == ys.map directive) = true ↔ (xs == ys) = true := by
    intro α _ _ directive hinj xs ys
    rw [beq_iff_eq, beq_iff_eq, List.map_inj_right fun _ _ => hinj]
  show (m.toModuleHead == n.toModuleHead && m.body == n.body) = true ↔
    (m.toModuleHead == n.toModuleHead && m.mainClass == n.mainClass &&
      m.packages.toList == n.packages.toList && m.requires.toList == n.requires.toList &&
      m.exports.toList == n.exports.toList && m.opens.toList == n.opens.toList &&
      m.uses.toList == n.uses.toList && m.provides.toList == n.provides.toList) = true
  rw [Bool.and_eq_true, ← m.flatten_sections, ← n.flatten_sections,
    flatten_beq_flatten (fun e e' h => congrArg ModuleEvent.place (eq_of_beq h)) m.ranked_sections
      n.ranked_sections rfl, ← toList_beq_toList m.mainClass]
  simp only [sections, List.cons_beq_cons, Bool.and_eq_true, beq_self_eq_true, and_true, and_assoc,
    hmap .mainClass ModuleEvent.mainClass.inj, hmap .package ModuleEvent.package.inj,
    hmap .requires ModuleEvent.requires.inj, hmap .exports ModuleEvent.exports.inj,
    hmap .opens ModuleEvent.opens.inj, hmap .uses ModuleEvent.uses.inj,
    hmap .provides ModuleEvent.provides.inj]

end ModuleDecl

/-! ### Classes -/

/-- The place of an event among the sections of a class. -/
def ClassEvent.place : ClassEvent → Nat
  | .header _ => 0
  | .source _ _ => 1
  | .moduleInfo _ _ => 2
  | .nestHost _ => 3
  | .outerClass _ => 4
  | .member .finish => 12
  | .member _ => 5
  | .nestMember _ => 6
  | .permittedSubtype _ => 7
  | .innerClass _ => 8
  | .component _ _ => 9
  | .field _ _ => 10
  | .method _ _ => 11

theorem ClassEvent.place_eq_of_beq (e e' : ClassEvent) (h : (e == e') = true) :
    e.place = e'.place := by
  cases e with
  | member e =>
    cases e' with
    | member e' =>
      cases e <;> cases e' <;> first
        | exact absurd h Bool.false_ne_true
        | rfl
    | _ => exact absurd h Bool.false_ne_true
  | _ =>
    cases e' <;> first
      | exact absurd h Bool.false_ne_true
      | rfl

theorem ClassEvent.place_member {e : MemberEvent} (h : e ≠ .finish) : (member e).place = 5 := by
  cases e with
  | finish => exact absurd rfl h
  | _ => rfl

namespace ClassDecl

/-- The events of a class, section by section. -/
def sections (c : ClassDecl) : List (List ClassEvent) :=
  [[.header c.toClassHeader],
   c.sourceEvents,
   c.moduleInfo.toList.map ModuleDecl.event,
   c.nestHost.toList.map .nestHost,
   c.outerClass.toList.map .outerClass,
   c.metadata.events.map .member,
   c.nestMembers.toList.map .nestMember,
   c.permittedSubtypes.toList.map .permittedSubtype,
   c.innerClasses.map InnerClass.event,
   c.components.toList.map ComponentDecl.event,
   c.fields.values.map FieldDecl.event,
   c.methods.values.map MethodDecl.event,
   [.member .finish]]

theorem flatten_sections (c : ClassDecl) : c.sections.flatten = c.events := by
  simp [sections, events, Option.toList_map]

theorem ranked_sections (c : ClassDecl) : Ranked ClassEvent.place 0 c.sections := by
  have hsource : ∀ e ∈ c.sourceEvents, e.place = 1 := by
    intro e he
    unfold sourceEvents at he
    split at he
    · rw [List.mem_singleton.mp he]
      rfl
    · cases he
  have hmember : ∀ e ∈ c.metadata.events, (ClassEvent.member e).place = 5 :=
    fun e he => ClassEvent.place_member (c.metadata.finish_not_mem_events e he)
  simp only [sections, Ranked, List.forall_mem_map, List.forall_mem_singleton]
  exact ⟨rfl, hsource, fun _ _ => rfl, fun _ _ => rfl, fun _ _ => rfl, hmember, fun _ _ => rfl,
    fun _ _ => rfl, fun _ _ => rfl, fun _ _ => rfl, fun _ _ => rfl, fun _ _ => rfl, rfl, trivial⟩

theorem sourceEvents_beq_iff (a b : ClassDecl) : (a.sourceEvents == b.sourceEvents) = true ↔
    a.sourceFile = b.sourceFile ∧ a.sourceDebug = b.sourceDebug := by
  have hsource : ∀ f d f' d' : Option String,
      ([ClassEvent.source f d] == [ClassEvent.source f' d']) = true ↔ f = f' ∧ d = d' := by
    intro f d f' d'
    show ((f == f' && d == d') && true) = true ↔ _
    simp only [Bool.and_true, Bool.and_eq_true, beq_iff_eq]
  unfold sourceEvents
  split
  · split
    · exact hsource ..
    · -- only one side has a source event, and there the strings are not both missing
      refine iff_of_false Bool.false_ne_true ?_
      rintro ⟨hf, hd⟩
      simp_all
  · split
    · refine iff_of_false Bool.false_ne_true ?_
      rintro ⟨hf, hd⟩
      simp_all
    · refine iff_of_true rfl ?_
      simp_all

theorem events_beq_iff (a b : ClassDecl) : (a.events == b.events) = true ↔
    a.SameFrame b ∧ (a.metadata.events == b.metadata.events) = true ∧
      (a.components.toList.map ComponentDecl.event ==
        b.components.toList.map ComponentDecl.event) = true ∧
      (a.fields.values.map FieldDecl.event == b.fields.values.map FieldDecl.event) = true ∧
      (a.methods.values.map MethodDecl.event == b.methods.values.map MethodDecl.event) = true := by
  have hheader : (ClassEvent.header a.toClassHeader == ClassEvent.header b.toClassHeader) = true ↔
      a.toClassHeader = b.toClassHeader := beq_iff_eq (a := a.toClassHeader)
  have hmodule : (a.moduleInfo.toList.map ModuleDecl.event ==
      b.moduleInfo.toList.map ModuleDecl.event) = true ↔ (a.moduleInfo == b.moduleInfo) = true := by
    rw [map_beq_map_iff ModuleDecl.event fun m n => Bool.eq_iff_iff.mpr (m.event_beq_iff n),
      toList_beq_toList]
  have hhost : (a.nestHost.toList.map ClassEvent.nestHost ==
      b.nestHost.toList.map ClassEvent.nestHost) = true ↔ a.nestHost = b.nestHost := by
    rw [map_beq_map_iff ClassEvent.nestHost fun _ _ => rfl, toList_beq_toList, beq_iff_eq]
  have houter : (a.outerClass.toList.map ClassEvent.outerClass ==
      b.outerClass.toList.map ClassEvent.outerClass) = true ↔ a.outerClass = b.outerClass := by
    rw [map_beq_map_iff ClassEvent.outerClass fun _ _ => rfl, toList_beq_toList, beq_iff_eq]
  have hmember := map_beq_map_iff ClassEvent.member (fun _ _ => rfl) a.metadata.events b.metadata.events
  have hnest : (a.nestMembers.toList.map ClassEvent.nestMember ==
      b.nestMembers.toList.map ClassEvent.nestMember) = true ↔ (a.nestMembers == b.nestMembers) = true :=
    map_beq_map_iff ClassEvent.nestMember (fun _ _ => rfl) ..
  have hpermitted : (a.permittedSubtypes.toList.map ClassEvent.permittedSubtype ==
      b.permittedSubtypes.toList.map ClassEvent.permittedSubtype) = true ↔
        (a.permittedSubtypes == b.permittedSubtypes) = true :=
    map_beq_map_iff ClassEvent.permittedSubtype (fun _ _ => rfl) ..
  have hinner : (a.innerClasses.map InnerClass.event == b.innerClasses.map InnerClass.event) = true ↔
      a.innerClasses = b.innerClasses := by
    rw [map_beq_map_iff InnerClass.event fun _ _ => rfl, beq_iff_eq]
  have hfinish : (ClassEvent.member .finish == ClassEvent.member .finish) = true := rfl
  rw [← a.flatten_sections, ← b.flatten_sections,
    flatten_beq_flatten ClassEvent.place_eq_of_beq a.ranked_sections b.ranked_sections rfl]
  simp only [sections, List.cons_beq_cons, Bool.and_eq_true, List.beq_nil_eq, List.isEmpty_nil,
    and_true, hheader, sourceEvents_beq_iff, hmodule, hhost, houter, hmember, hnest, hpermitted,
    hinner, hfinish, and_assoc]
  constructor
  · rintro ⟨hheader, hfile, hdebug, hmodule, hhost, houter, hmetadata, hnest, hpermitted, hinner,
      hcomponents, hfields, hmethods⟩
    exact ⟨⟨hheader, hfile, hdebug, hmodule, hhost, houter, hnest, hpermitted, hinner⟩, hmetadata,
      hcomponents, hfields, hmethods⟩
  · rintro ⟨h, hmetadata, hcomponents, hfields, hmethods⟩
    exact ⟨h.header, h.sourceFile, h.sourceDebug, h.moduleInfo, h.nestHost, h.outerClass, hmetadata,
      h.nestMembers, h.permittedSubtypes, h.innerClasses, hcomponents, hfields, hmethods⟩

end ClassDecl

end ClassTree

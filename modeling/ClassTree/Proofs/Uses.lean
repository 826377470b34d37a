/-
# Which feature a check refuses

A class uses features, each in a named place: the class itself, a component, a
field or a method. `ClassDecl.uses` lists them in the order of the walk, with
the components from last to first. A check at a tier refuses the first listed
feature that begins above the tier, reports that one and nothing else, and
accepts the class if there is none (`ClassDecl.check_eq_verdict`,
`ClassDecl.check_reports_first`).

The walk also descends into annotations at any depth. No value is tied to a
tier, so these descents neither end it nor report
(`ElementValue.inspect_eq_pure`), and what is left of the walk is a sequence of
requirements. Each of them is the tier's ruling on one use or on none, and
rulings made one after the other are the ruling on the uses listed one after
the other (`Tier.ruling_append`), since the first refusal ends the walk
together with its log.
-/
import ClassTree.Class.Basic

namespace ClassTree

/-! ### Rulings -/

/-- A tier's answer to a list of features in named places: it refuses the first
one that begins above it. -/
def Tier.verdict (t : Tier) (us : List (String × Feature)) : Except Violation Unit :=
  match us.find? fun u => t < u.2.minimumTier with
  | some u => .error ⟨u.1, u.2, t⟩
  | none => .ok ()

/-- A tier's answer to a list of features in named places, as a walk. -/
def Tier.ruling (t : Tier) (us : List (String × Feature)) : Check Unit :=
  match us.find? fun u => t < u.2.minimumTier with
  | some u => refuse ⟨u.1, u.2, t⟩
  | none => pure ()

/-- What follows a refusal is not reached. -/
theorem refuse_bind (v : Violation) (k : Unit → Check Unit) : (refuse v >>= k) = refuse v := rfl

namespace Tier

/-- The ruling ends with the verdict. -/
theorem result_ruling (t : Tier) (us : List (String × Feature)) :
    (t.ruling us).result = t.verdict us := by
  unfold ruling verdict
  cases us.find? fun u => t < u.2.minimumTier with
  | none => rfl
  | some u => rfl

/-- Listing one after the other is asking one after the other. -/
theorem ruling_append (t : Tier) (us vs : List (String × Feature)) :
    t.ruling (us ++ vs) = (t.ruling us >>= fun _ => t.ruling vs) := by
  unfold ruling
  rw [List.find?_append]
  cases us.find? fun u => t < u.2.minimumTier with
  | none => rfl
  | some u => exact (refuse_bind ..).symm

/-- A walk over parts is the ruling on what the parts use, in order. -/
theorem forM_eq_ruling {t : Tier} {walk : α → Check Unit} {uses : α → List (String × Feature)}
    (h : ∀ x, walk x = t.ruling (uses x)) : ∀ xs : List α,
    xs.forM walk = t.ruling (xs.flatMap uses)
  | [] => rfl
  | x :: xs => by
    rw [List.flatMap_cons, ruling_append, ← h x, ← forM_eq_ruling h xs]
    rfl

/-- A requirement is the ruling on the one feature, if it is used. -/
theorem require_eq_ruling (t : Tier) (f : Feature) (used : Bool) (owner : String) :
    require t f used owner = t.ruling (if used then [(owner, f)] else []) := by
  cases used with
  | false => rfl
  | true =>
    have hlt : f.availableAt t = false ↔ t < f.minimumTier := by
      rw [← Bool.not_eq_true, f.availableAt_iff t, Tier.le_def, Tier.lt_def]
      omega
    unfold require ruling
    by_cases h : t < f.minimumTier
    · simp [h, hlt.mpr h]
    · simp [h, Bool.of_not_eq_false (mt hlt.mp h)]

end Tier

/-! ### Descents -/

theorem forM_eq_pure (f : α → Check Unit) : ∀ xs : List α,
    (∀ x ∈ xs, f x = pure ()) → xs.forM f = pure ()
  | [], _ => rfl
  | x :: xs, h => by
    show (f x >>= fun _ => xs.forM f) = pure ()
    rw [h x List.mem_cons_self, pure_bind]
    exact forM_eq_pure f xs fun y hy => h y (List.mem_cons_of_mem x hy)

namespace ElementValue

theorem inspectEntries_eq_pure {t : Tier} : ∀ {es : List (String × ElementValue)},
    (∀ e ∈ es, e.2.inspect t = pure ()) → inspectEntries t es = pure ()
  | [], _ => rfl
  | (k, v) :: es, h => by
    rw [inspectEntries, h (k, v) List.mem_cons_self, pure_bind]
    exact inspectEntries_eq_pure fun e he => h e (List.mem_cons_of_mem _ he)

theorem inspectItems_eq_pure {t : Tier} : ∀ {vs : List ElementValue},
    (∀ v ∈ vs, v.inspect t = pure ()) → inspectItems t vs = pure ()
  | [], _ => rfl
  | v :: vs, h => by
    rw [inspectItems, h v List.mem_cons_self, pure_bind]
    exact inspectItems_eq_pure fun w hw => h w (List.mem_cons_of_mem _ hw)

/-- No tier refuses a value, however deep, and none reports one. -/
theorem inspect_eq_pure (t : Tier) (v : ElementValue) : v.inspect t = pure () := by
  induction v using ElementValue.induct with
  | annot a ih =>
    obtain ⟨d, f, ⟨es, p⟩⟩ := a
    rw [inspect]
    exact inspectEntries_eq_pure ih
  | array r ih =>
    obtain ⟨vs, p⟩ := r
    rw [inspect]
    exact inspectItems_eq_pure ih
  | _ => rfl

end ElementValue

theorem Annot.inspect_eq_pure (t : Tier) (a : Annot) : Annot.inspect t a = pure () :=
  ElementValue.inspectEntries_eq_pure fun e _ => e.2.inspect_eq_pure t

theorem ValueArray.inspect_eq_pure (t : Tier) (r : ValueArray) : ValueArray.inspect t r = pure () :=
  ElementValue.inspectItems_eq_pure fun v _ => v.inspect_eq_pure t

theorem TypeAnnot.inspect_eq_pure (t : Tier) (a : TypeAnnot) : TypeAnnot.inspect t a = pure () :=
  Annot.inspect_eq_pure t a.annot

theorem Metadata.inspectInside_eq_pure (m : Metadata) (t : Tier) : m.inspectInside t = pure () := by
  unfold inspectInside
  rw [forM_eq_pure _ _ fun a _ => Annot.inspect_eq_pure t a,
    forM_eq_pure _ m.visibleTypeAnnots.toList.reverse fun a _ => TypeAnnot.inspect_eq_pure t a,
    forM_eq_pure _ m.invisibleTypeAnnots.toList.reverse fun a _ => TypeAnnot.inspect_eq_pure t a]
  rfl

/-! ### Uses -/

/-- The type annotations of metadata, if there are any, in the place of their
owner. -/
def Metadata.uses (m : Metadata) (owner : String) : List (String × Feature) :=
  if !m.visibleTypeAnnots.toList.isEmpty || !m.invisibleTypeAnnots.toList.isEmpty then
    [(owner, .typeAnnots)]
  else []

/-- The parameters of a method, then its type annotations. -/
def MethodDecl.uses (m : MethodDecl) : List (String × Feature) :=
  (if !m.parameters.toList.isEmpty then [(m.name, .methodParameters)] else []) ++
    m.metadata.uses m.name

/-- The features that a class uses, each with the name of its place, in the
order of the walk. Permitted subtypes, components and nest members count as
soon as their list is present. -/
def ClassDecl.uses (c : ClassDecl) : List (String × Feature) :=
  (if c.permittedSubtypes.isPresent then [(c.name, .permittedSubtypes)] else []) ++
    (if c.access.contains .record || c.components.isPresent then [(c.name, .records)] else []) ++
    (if c.nestHost.isSome || c.nestMembers.isPresent then [(c.name, .nesting)] else []) ++
    (if c.moduleInfo.isSome then [(c.name, .modules)] else []) ++
    c.metadata.uses c.name ++
    c.components.toList.reverse.flatMap (fun d => d.metadata.uses d.name) ++
    c.fields.values.flatMap (fun f => f.metadata.uses f.name) ++
    c.methods.values.flatMap MethodDecl.uses

theorem Metadata.inspectTypes_eq_ruling (m : Metadata) (t : Tier) (owner : String) :
    m.inspectTypes t owner = t.ruling (m.uses owner) :=
  t.require_eq_ruling ..

/-- The walk of a member that has nothing but metadata. -/
theorem Metadata.inspectTypes_bind_inspectInside (m : Metadata) (t : Tier) (owner : String) :
    (m.inspectTypes t owner >>= fun _ => m.inspectInside t) = t.ruling (m.uses owner) := by
  rw [inspectInside_eq_pure, inspectTypes_eq_ruling]
  exact bind_pure _

theorem ComponentDecl.inspect_eq_ruling (c : ComponentDecl) (t : Tier) :
    c.inspect t = t.ruling (c.metadata.uses c.name) :=
  c.metadata.inspectTypes_bind_inspectInside t c.name

theorem FieldDecl.inspect_eq_ruling (f : FieldDecl) (t : Tier) :
    f.inspect t = t.ruling (f.metadata.uses f.name) :=
  f.metadata.inspectTypes_bind_inspectInside t f.name

theorem MethodDecl.inspect_eq_ruling (m : MethodDecl) (t : Tier) : m.inspect t = t.ruling m.uses := by
  unfold inspect uses
  rw [Metadata.inspectInside_eq_pure, Metadata.inspectTypes_eq_ruling, t.require_eq_ruling,
    forM_eq_pure _ _ fun r _ => ValueArray.inspect_eq_pure t r, Tier.ruling_append, pure_bind]
  exact congrArg (t.ruling _ >>= ·) (funext fun _ => bind_pure _)

namespace ClassDecl

/-- **A check is the tier's ruling on the uses of the class**, its end and its
log alike. -/
theorem inspect_eq_ruling (c : ClassDecl) (t : Tier) : c.inspect t = t.ruling c.uses := by
  have hcomponents := Tier.forM_eq_ruling (ComponentDecl.inspect_eq_ruling · t)
  have hfields := Tier.forM_eq_ruling (FieldDecl.inspect_eq_ruling · t)
  have hmethods := Tier.forM_eq_ruling (MethodDecl.inspect_eq_ruling · t)
  unfold inspect uses
  rw [Metadata.inspectInside_eq_pure, hcomponents, hfields, hmethods,
    Metadata.inspectTypes_eq_ruling]
  simp only [t.require_eq_ruling, Tier.ruling_append, bind_assoc, pure_bind]
  rfl

/-- A check ends with the tier's verdict on the uses of the class. -/
theorem check_eq_verdict (c : ClassDecl) (t : Tier) : c.check t = t.verdict c.uses := by
  unfold check
  rw [c.inspect_eq_ruling t, t.result_ruling]

/-- Classes with the same uses are checked alike, and the check reports the
same. -/
theorem check_congr {c d : ClassDecl} (h : c.uses = d.uses) (t : Tier) :
    c.check t = d.check t ∧ c.checkNotices t = d.checkNotices t := by
  unfold check checkNotices
  rw [c.inspect_eq_ruling t, d.inspect_eq_ruling t, h]
  exact ⟨rfl, rfl⟩

/-- **A check reports exactly the first use that its tier does not have.** It
fails with that use and one line that names its place, the feature and the
tier; without such a use it succeeds and is silent. -/
theorem check_reports_first (c : ClassDecl) (t : Tier) :
    match c.uses.find? fun u => t < u.2.minimumTier with
    | some (owner, feature) =>
      c.check t = .error ⟨owner, feature, t⟩ ∧
        (c.checkNotices t).map (fun n => (n.level, n.message)) =
          [(.debug, "`" ++ owner ++ "` uses " ++ feature.label ++
            ", which is unavailable at tier " ++ t.label)]
    | none => c.check t = .ok () ∧ c.checkNotices t = [] := by
  unfold check checkNotices
  rw [c.inspect_eq_ruling t]
  unfold Tier.ruling
  cases c.uses.find? fun u => t < u.2.minimumTier with
  | some u => exact ⟨rfl, rfl⟩
  | none => exact ⟨rfl, rfl⟩

end ClassDecl

end ClassTree

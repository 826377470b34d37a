/-
# Compatibility tiers and the features they admit

A class is read and written at a compatibility tier. Six tiers are strictly
ordered by rank; each structural feature exists from its minimum tier on.
Permitted subtypes are tied to the experimental tier itself, and since that
is the last tier, the rule agrees with the lower bound
(`Feature.availableAt_iff`).

Key definitions: `Tier`, `Feature`, `Feature.minimumTier`,
`Feature.availableAt`, `Violation`.
-/
namespace ClassTree

/-- A compatibility level of the class format. -/
inductive Tier
  | v4
  | v5
  | v6
  | v7
  | v8
  | experimental
  deriving DecidableEq, Repr

namespace Tier

/-- All tiers, from the most restrictive to the most permissive. -/
def all : List Tier := [v4, v5, v6, v7, v8, experimental]

/-- The number of a tier; tiers are ordered by it. -/
def rank : Tier → Nat
  | v4 => 4
  | v5 => 5
  | v6 => 6
  | v7 => 7
  | v8 => 8
  | experimental => 9

instance : LE Tier := ⟨fun s t => s.rank ≤ t.rank⟩
instance : LT Tier := ⟨fun s t => s.rank < t.rank⟩
instance (s t : Tier) : Decidable (s ≤ t) := inferInstanceAs (Decidable (s.rank ≤ t.rank))
instance (s t : Tier) : Decidable (s < t) := inferInstanceAs (Decidable (s.rank < t.rank))
instance : Ord Tier := ⟨fun s t => compare s.rank t.rank⟩

theorem le_def (s t : Tier) : s ≤ t ↔ s.rank ≤ t.rank := Iff.rfl

theorem lt_def (s t : Tier) : s < t ↔ s.rank < t.rank := Iff.rfl

/-- The tier used when a configuration names none. -/
def standard : Tier := v8

/-- The most permissive tier. -/
def latest : Tier := experimental

/-- The tier with a given number. -/
def ofRank? (n : Nat) : Option Tier := all.find? (·.rank == n)

/-- The tier as messages print it. -/
def label : Tier → String
  | v4 => "V4"
  | v5 => "V5"
  | v6 => "V6"
  | v7 => "V7"
  | v8 => "V8"
  | experimental => "Experimental"

/-- The tier as configurations write it. -/
def key : Tier → String
  | v4 => "v4"
  | v5 => "v5"
  | v6 => "v6"
  | v7 => "v7"
  | v8 => "v8"
  | experimental => "experimental"

/-- The tier that a configuration key names. -/
def ofKey? (s : String) : Option Tier := all.find? (·.key == s)

theorem ofRank?_rank : ∀ t : Tier, ofRank? t.rank = some t
  | v4 | v5 | v6 | v7 | v8 | experimental => rfl

end Tier

/-- A structural feature that exists only from some tier onwards. -/
inductive Feature
  | typeAnnots
  | methodParameters
  | modules
  | nesting
  | records
  | permittedSubtypes
  deriving DecidableEq, Repr

namespace Feature

/-- All features, in the order the format introduced them. -/
def all : List Feature :=
  [typeAnnots, methodParameters, modules, nesting, records, permittedSubtypes]

/-- The feature as messages print it. -/
def label : Feature → String
  | typeAnnots => "TypeAnnotations"
  | methodParameters => "MethodParameters"
  | modules => "Modules"
  | nesting => "Nesting"
  | records => "Records"
  | permittedSubtypes => "PermittedSubtypes"

/-- The first tier at which the feature is accepted. -/
def minimumTier : Feature → Tier
  | typeAnnots => .v5
  | methodParameters => .v5
  | modules => .v6
  | nesting => .v7
  | records => .v8
  | permittedSubtypes => .experimental

/-- Whether the feature may appear at a tier. Permitted subtypes are bound to
the experimental tier itself, all others to a lower bound. -/
def availableAt : Feature → Tier → Bool
  | permittedSubtypes, t => t = .experimental
  | f, t => f.minimumTier ≤ t

/-- A feature is available from its minimum tier on, permitted subtypes included. -/
theorem availableAt_iff (f : Feature) (t : Tier) :
    f.availableAt t = true ↔ f.minimumTier ≤ t := by
  cases f <;> cases t <;> decide

end Feature

/-- A feature found in a class tree that the checked tier does not have,
with the name of the class or member that carries it. -/
structure Violation where
  owner : String
  feature : Feature
  tier : Tier
  deriving DecidableEq, Repr

/-- The text of the error. It names the tier only; the owner and the feature
are reported on the side (`Notice.unavailable`). -/
def Violation.message (v : Violation) : String :=
  "The class tree uses a feature that is not available at compatibility tier `" ++
    v.tier.label ++ "`."

end ClassTree

/-
# Checks

A check walks a class and asks at each place whether its tier has what stands
there. The first feature that the tier does not have is reported and ends the
walk. The notices lie beside the result, so what was reported stays reported
when the walk ends.

Key definitions: `Check`, `Check.result`, `Check.notices`, `report`, `refuse`,
`require`.
-/
import ClassTree.Notice

namespace ClassTree

/-- A walk that a violation can end, with the notices it has reported. -/
abbrev Check := ExceptT Violation (StateM (List Notice))

/-- How the walk ends. -/
def Check.result (x : Check α) : Except Violation α := (x.run.run []).1

/-- What the walk reports, to its end. -/
def Check.notices (x : Check α) : List Notice := (x.run.run []).2

/-- Reports a notice and goes on. -/
def report (n : Notice) : Check Unit := modify (· ++ [n])

/-- Reports a violation and ends the walk with it. -/
def refuse (v : Violation) : Check Unit := do
  report (.unavailable v)
  throw v

/-- Refuses a feature that is present and not available at the tier. -/
def require (tier : Tier) (feature : Feature) (present : Bool) (owner : String) : Check Unit :=
  if present && !feature.availableAt tier then refuse ⟨owner, feature, tier⟩ else pure ()

end ClassTree

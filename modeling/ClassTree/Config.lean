/-
# Configuration of a class tree

A class is built under a configuration: where replacements land, and the
tier that a check without a tier uses.

Key definitions: `Config`, `Config.toml`.
-/
import ClassTree.Table
import ClassTree.Tier

namespace ClassTree

/-- How a class is built and checked. -/
structure Config where
  replacePolicy : ReplacePolicy := .inPlace
  defaultTier : Tier := .standard
  deriving DecidableEq, Repr

/-- The configuration as a document. -/
def Config.toml (c : Config) : String :=
  "replace_policy = \"" ++ c.replacePolicy.key ++ "\"\ndefault_tier = \"" ++ c.defaultTier.key ++
    "\"\n"

end ClassTree

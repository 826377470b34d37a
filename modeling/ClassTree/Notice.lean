/-
# Notices

What the library reports on the side while it works: an entry that was
replaced, an interior that was pruned during a replay, the feature that a
tier check met first. Notices never change a result.

Key definitions: `Notice`, `Notice.level`, `Notice.message`, `reportAll`.
-/
import ClassTree.Tier

namespace ClassTree

/-- How loud a notice is. -/
inductive Level
  | trace
  | debug
  deriving DecidableEq, Repr

/-- The level as reports print it. -/
def Level.label : Level → String
  | trace => "TRACE"
  | debug => "DEBUG"

/-- Something reported on the side. -/
inductive Notice
  /-- A named element of an annotation took the place of an earlier one. -/
  | elementReplaced (name descriptor : String)
  /-- An annotation took the place of an earlier one, whose flag is `was`. -/
  | annotReplaced (descriptor : String) (was now : Bool)
  | fieldReplaced (name owner : String)
  | methodReplaced (signature owner : String)
  | annotPruned (descriptor : String)
  | typeAnnotPruned (descriptor : String)
  | componentPruned (name : String)
  | fieldPruned (name : String)
  | methodPruned (signature : String)
  | modulePruned (name : String)
  /-- A check met a feature that its tier does not have. -/
  | unavailable (violation : Violation)
  deriving DecidableEq, Repr

namespace Notice

def level : Notice → Level
  | unavailable _ => .debug
  | _ => .trace

/-- The wording of a flag. -/
def flag (b : Bool) : String := if b then "true" else "false"

/-- The wording of a notice. -/
def message : Notice → String
  | elementReplaced name descriptor => "element `" ++ name ++ "` of `" ++ descriptor ++ "` replaced"
  | annotReplaced descriptor was now =>
    "annotation `" ++ descriptor ++ "` (visible: " ++ flag was ++ ") replaced by (visible: " ++
      flag now ++ ")"
  | fieldReplaced name owner => "field `" ++ name ++ "` of `" ++ owner ++ "` replaced"
  | methodReplaced signature owner => "method `" ++ signature ++ "` of `" ++ owner ++ "` replaced"
  | annotPruned descriptor => "annotation `" ++ descriptor ++ "` pruned by sink"
  | typeAnnotPruned descriptor => "type annotation `" ++ descriptor ++ "` pruned by sink"
  | componentPruned name => "interior of record component `" ++ name ++ "` pruned by sink"
  | fieldPruned name => "interior of field `" ++ name ++ "` pruned by sink"
  | methodPruned signature => "interior of method `" ++ signature ++ "` pruned by sink"
  | modulePruned name => "interior of module `" ++ name ++ "` pruned by sink"
  | unavailable v =>
    "`" ++ v.owner ++ "` uses " ++ v.feature.label ++ ", which is unavailable at tier " ++
      v.tier.label

end Notice

/-- What a run of events reports: each event in the state that the earlier
events left. -/
def reportAll (absorb : σ → ε → σ) (report : σ → ε → List Notice) : σ → List ε → List Notice
  | _, [] => []
  | s, e :: es => report s e ++ reportAll absorb report (absorb s e) es

end ClassTree

/-
# Reading a configuration

A configuration is a TOML document with at most the keys `replace_policy`
and `default_tier`. The document is read whole; then its keys are taken in
ascending order, and the first one that is wrong is reported. A choice is
written as a string, or as a table whose only key names it and holds nothing.

Key definitions: `ConfigError`, `ConfigError.message?`, `Config.ofToml`.
-/
import ClassTree.Config
import ClassTree.Toml.Document

namespace ClassTree

/-- Why a text is not a configuration. -/
inductive ConfigError
  /-- The text is not a TOML document. -/
  | malformed
  | unknownKey (key : String)
  | unknownPolicy (name : String)
  | unknownTier (name : String)
  /-- The value of a key is not written as a choice. -/
  | notAChoice (key : String)
  deriving DecidableEq, Repr

namespace ConfigError

/-- Names in backquotes. -/
def quoted (name : String) : String := "`" ++ name ++ "`"

/-- What was expected: one of two names, or one of several. -/
def expectation : List String → String
  | [a, b] => quoted a ++ " or " ++ quoted b
  | names => "one of " ++ ", ".intercalate (names.map quoted)

/-- The wording of the errors that name what they met. -/
def message? : ConfigError → Option String
  | unknownKey key =>
    some ("unknown field " ++ quoted key ++ ", expected " ++
      expectation ["replace_policy", "default_tier"])
  | unknownPolicy name =>
    some ("unknown variant " ++ quoted name ++ ", expected " ++
      expectation (ReplacePolicy.all.map (·.key)))
  | unknownTier name =>
    some ("unknown variant " ++ quoted name ++ ", expected " ++
      expectation (Tier.all.map (·.key)))
  | malformed => none
  | notAChoice _ => none

end ConfigError

namespace Config

/-- Whether a value holds nothing: an empty table or an empty array. -/
def isVoid : Toml → Bool
  | .table _ entries => entries.isEmpty
  | .array _ items => items.isEmpty
  | _ => false

/-- Reads a choice. -/
def choice (ofName? : String → Option α) (unknown : String → ConfigError) (key : String) :
    Toml → Except ConfigError α
  | .string name =>
    match ofName? name with
    | some a => .ok a
    | none => .error (unknown name)
  | .table _ [(name, held)] =>
    match ofName? name with
    | some a => if isVoid held then .ok a else .error (.notAChoice key)
    | none => .error (unknown name)
  | _ => .error (.notAChoice key)

/-- Takes one pair of the document into account. -/
def readPair (c : Config) : String × Toml → Except ConfigError Config
  | ("replace_policy", value) => do
    let p ← choice ReplacePolicy.ofKey? .unknownPolicy "replace_policy" value
    return { c with replacePolicy := p }
  | ("default_tier", value) => do
    let t ← choice Tier.ofKey? .unknownTier "default_tier" value
    return { c with defaultTier := t }
  | (key, _) => .error (.unknownKey key)

/-- Reads a configuration. Keys that are absent keep their usual values. -/
def ofToml (text : String) : Except ConfigError Config :=
  match Toml.ofText? text with
  | none => .error .malformed
  | some entries => (entries.mergeSort fun a b => a.1 ≤ b.1).foldlM readPair {}

end Config

end ClassTree

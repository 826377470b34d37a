/-
# Module descriptors

A class can describe a module: its name, and directives that say which
packages it has, requires, exports, opens, and which services it uses and
provides.

Key definitions: `ModuleHead`, `ModuleDecl`, `ModuleEvent`,
`ModuleDecl.absorb`, `ModuleDecl.body`.
-/
import ClassTree.Access
import ClassTree.AttrList

namespace ClassTree

/-- A module that is required. -/
structure Requirement where
  moduleName : String
  access : Access
  version : Option String
  deriving DecidableEq, Repr

/-- A package that is exported or opened, to some modules or to all. -/
structure PackageGrant where
  package : String
  access : Access
  modules : List String
  deriving DecidableEq, Repr

/-- A service with its providers. -/
structure Provision where
  service : String
  providers : List String
  deriving DecidableEq, Repr

/-- What declares a module. -/
structure ModuleHead where
  name : String
  access : Access
  version : Option String
  deriving DecidableEq, Repr

/-- A module: its head and its directives. -/
structure ModuleDecl extends ModuleHead where
  mainClass : Option String
  packages : AttrList String
  requires : AttrList Requirement
  exports : AttrList PackageGrant
  opens : AttrList PackageGrant
  uses : AttrList String
  provides : AttrList Provision

instance : BEq ModuleDecl :=
  ⟨fun m n => m.toModuleHead == n.toModuleHead && m.mainClass == n.mainClass &&
    m.packages == n.packages && m.requires == n.requires && m.exports == n.exports &&
    m.opens == n.opens && m.uses == n.uses && m.provides == n.provides⟩

/-- One step in the construction of a module. -/
inductive ModuleEvent
  | mainClass (name : String)
  | package (name : String)
  | requires (r : Requirement)
  | exports (g : PackageGrant)
  | opens (g : PackageGrant)
  | uses (service : String)
  | provides (p : Provision)
  | finish
  deriving DecidableEq, Repr

namespace ModuleDecl

/-- A module without directives. -/
def blank (head : ModuleHead) : ModuleDecl :=
  ⟨head, none, .absent, .absent, .absent, .absent, .absent, .absent⟩

/-- The module after an event. -/
def absorb (m : ModuleDecl) : ModuleEvent → ModuleDecl
  | .mainClass name => { m with mainClass := some name }
  | .package name => { m with packages := m.packages.push name }
  | .requires r => { m with requires := m.requires.push r }
  | .exports g => { m with exports := m.exports.push g }
  | .opens g => { m with opens := m.opens.push g }
  | .uses service => { m with uses := m.uses.push service }
  | .provides p => { m with provides := m.provides.push p }
  | .finish => m

/-- The module after a sequence of events. -/
def absorbAll (m : ModuleDecl) (es : List ModuleEvent) : ModuleDecl := es.foldl absorb m

/-- The events that build the directives: main class, packages, requirements,
exports, opens, uses, provisions. -/
def body (m : ModuleDecl) : List ModuleEvent :=
  (m.mainClass.map .mainClass).toList ++
    m.packages.toList.map .package ++
    m.requires.toList.map .requires ++
    m.exports.toList.map .exports ++
    m.opens.toList.map .opens ++
    m.uses.toList.map .uses ++
    m.provides.toList.map .provides ++
    [.finish]

end ModuleDecl

end ClassTree

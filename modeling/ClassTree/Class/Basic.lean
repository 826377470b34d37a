/-
# Classes

A class is a header and what hangs below it. Fields are keyed by name and
methods by name and descriptor; everything else that a class lists keeps all
its entries. Equality (`==`) compares the structure; the configuration and
the policies are not part of it.

Finished fields, methods and annotations can be inserted directly. They are
stored under their own key and take over the policy of their new place.

Key definitions: `ClassHeader`, `ClassDecl`, `ClassDecl.blank`,
`ClassDecl.insertField`, `ClassDecl.insertMethod`, `ClassDecl.inspect`,
`ClassDecl.check`, `ClassDecl.checkNotices`.
-/
import ClassTree.Config
import ClassTree.Member.Component
import ClassTree.Member.Field
import ClassTree.Member.Method
import ClassTree.ModuleInfo

namespace ClassTree

/-- The enclosing class of a local class, with the enclosing method if any. -/
structure OuterClass where
  owner : String
  methodName : Option String
  methodDescriptor : Option String
  deriving DecidableEq, Repr

/-- An entry of the inner class list. -/
structure InnerClass where
  name : String
  outerName : Option String
  innerName : Option String
  access : Access
  deriving DecidableEq, Repr

/-- What declares a class. -/
structure ClassHeader where
  version : UInt32
  access : Access
  name : String
  signature : Option String
  superName : Option String
  /-- May name an interface twice. -/
  interfaces : List String
  deriving DecidableEq, Repr

/-- A class: its header and what hangs below it. -/
structure ClassDecl extends ClassHeader where
  sourceFile : Option String
  sourceDebug : Option String
  moduleInfo : Option ModuleDecl
  outerClass : Option OuterClass
  nestHost : Option String
  metadata : Metadata
  nestMembers : AttrList String
  permittedSubtypes : AttrList String
  innerClasses : List InnerClass
  components : AttrList ComponentDecl
  fields : Table String FieldDecl
  methods : Table MethodKey MethodDecl
  config : Config

instance : BEq ClassDecl :=
  ⟨fun c d => c.toClassHeader == d.toClassHeader && c.sourceFile == d.sourceFile &&
    c.sourceDebug == d.sourceDebug && c.moduleInfo == d.moduleInfo &&
    c.outerClass == d.outerClass && c.nestHost == d.nestHost && c.metadata == d.metadata &&
    c.nestMembers == d.nestMembers && c.permittedSubtypes == d.permittedSubtypes &&
    c.innerClasses == d.innerClasses && c.components == d.components && c.fields == d.fields &&
    c.methods == d.methods⟩

namespace ClassDecl

/-- The policy for everything built inside the class. -/
def policy (c : ClassDecl) : ReplacePolicy := c.config.replacePolicy

/-- A nameless class that holds nothing. -/
def blank (config : Config) : ClassDecl where
  version := 0
  access := .empty
  name := ""
  signature := none
  superName := none
  interfaces := []
  sourceFile := none
  sourceDebug := none
  moduleInfo := none
  outerClass := none
  nestHost := none
  metadata := .blank config.replacePolicy
  nestMembers := .absent
  permittedSubtypes := .absent
  innerClasses := []
  components := .absent
  fields := .empty config.replacePolicy
  methods := .empty config.replacePolicy
  config := config

/-! ### Direct edits -/

/-- Stores a finished annotation under its descriptor. -/
def insertAnnot (c : ClassDecl) (a : Annot) : ClassDecl :=
  { c with metadata := c.metadata.insertAnnot a }

/-- Stores a finished annotation, and hands back the one that it replaces. -/
def getThenInsertAnnot? (c : ClassDecl) (a : Annot) : Option Annot × ClassDecl :=
  let (old, metadata) := c.metadata.getThenInsertAnnot? a
  (old, { c with metadata })

/-- Takes out the annotation with a descriptor. -/
def removeAnnot (c : ClassDecl) (descriptor : String) : ClassDecl :=
  { c with metadata := c.metadata.removeAnnot descriptor }

/-- Stores a finished field under its name. -/
def insertField (c : ClassDecl) (f : FieldDecl) : ClassDecl :=
  { c with fields := c.fields.insert f.name (f.setPolicy c.policy) }

/-- Stores a finished field, and hands back the one that it replaces. -/
def getThenInsertField? (c : ClassDecl) (f : FieldDecl) : Option FieldDecl × ClassDecl :=
  let (old, fields) := c.fields.getThenInsert? f.name (f.setPolicy c.policy)
  (old, { c with fields })

/-- Takes out the field under a name. -/
def removeField (c : ClassDecl) (name : String) : ClassDecl :=
  { c with fields := c.fields.erase name }

/-- Stores a finished method under its name and descriptor. -/
def insertMethod (c : ClassDecl) (m : MethodDecl) : ClassDecl :=
  { c with methods := c.methods.insert m.key (m.setPolicy c.policy) }

/-- Stores a finished method, and hands back the one that it replaces. -/
def getThenInsertMethod? (c : ClassDecl) (m : MethodDecl) : Option MethodDecl × ClassDecl :=
  let (old, methods) := c.methods.getThenInsert? m.key (m.setPolicy c.policy)
  (old, { c with methods })

/-- Takes out the method under a key. -/
def removeMethod (c : ClassDecl) (key : MethodKey) : ClassDecl :=
  { c with methods := c.methods.erase key }

/-- Handing back what is replaced does not change what is stored. -/
theorem getThenInsertAnnot?_eq (c : ClassDecl) (a : Annot) :
    c.getThenInsertAnnot? a = (c.metadata.annots.get? a.descriptor, c.insertAnnot a) := by
  simp only [getThenInsertAnnot?, Metadata.getThenInsertAnnot?, Table.getThenInsert?_eq]
  rfl

theorem getThenInsertField?_eq (c : ClassDecl) (f : FieldDecl) :
    c.getThenInsertField? f = (c.fields.get? f.name, c.insertField f) := by
  simp only [getThenInsertField?, Table.getThenInsert?_eq]
  rfl

theorem getThenInsertMethod?_eq (c : ClassDecl) (m : MethodDecl) :
    c.getThenInsertMethod? m = (c.methods.get? m.key, c.insertMethod m) := by
  simp only [getThenInsertMethod?, Table.getThenInsert?_eq]
  rfl

/-! ### The tier check -/

/-- Whether the class is a record, by its flag or by its component list. -/
def isRecord (c : ClassDecl) : Bool := c.access.contains .record || c.components.isPresent

/-- Whether the class is part of a nest, as member or as host. -/
def isNested (c : ClassDecl) : Bool := c.nestHost.isSome || c.nestMembers.isPresent

/-- Walks the class and refuses the first feature that the tier does not
have. The features of the class itself come first: permitted subtypes,
records, nesting, the module, type annotations. Then the walk descends into
the metadata, the components from last to first, the fields and the methods.
A list that was emptied still counts as present. -/
def inspect (c : ClassDecl) (t : Tier) : Check Unit := do
  require t .permittedSubtypes c.permittedSubtypes.isPresent c.name
  require t .records c.isRecord c.name
  require t .nesting c.isNested c.name
  require t .modules c.moduleInfo.isSome c.name
  c.metadata.inspectTypes t c.name
  c.metadata.inspectInside t
  c.components.toList.reverse.forM (·.inspect t)
  c.fields.values.forM (·.inspect t)
  c.methods.values.forM (·.inspect t)

/-- Walks the class at the tier of its configuration. -/
def inspectDefault (c : ClassDecl) : Check Unit := c.inspect c.config.defaultTier

/-- Whether the class fits a tier, and if not, what is in the way. -/
def check (c : ClassDecl) (t : Tier) : Except Violation Unit := (c.inspect t).result

/-- What a check of the class reports. -/
def checkNotices (c : ClassDecl) (t : Tier) : List Notice := (c.inspect t).notices

end ClassDecl

end ClassTree

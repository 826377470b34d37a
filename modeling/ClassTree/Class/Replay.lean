/-
# Replaying a class

A class in any state is replayed as the events that build it, in a fixed
order. Replaying a class into another one is absorbing these events there.

Key definitions: `ClassDecl.events`, `FieldDecl.event`, `MethodDecl.event`,
`ComponentDecl.event`, `ModuleDecl.event`, `InnerClass.event`.
-/
import ClassTree.Class.Event

namespace ClassTree

/-- The event that declares the field with its interior. -/
def FieldDecl.event (f : FieldDecl) : ClassEvent := .field f.toFieldHead f.body

/-- The event that declares the method with its interior. -/
def MethodDecl.event (m : MethodDecl) : ClassEvent := .method m.toMethodHead m.body

/-- The event that declares the component with its interior. -/
def ComponentDecl.event (c : ComponentDecl) : ClassEvent := .component c.toComponentHead c.body

/-- The event that declares the module with its directives. -/
def ModuleDecl.event (m : ModuleDecl) : ClassEvent := .moduleInfo m.toModuleHead m.body

/-- The event that adds the inner class entry. -/
def InnerClass.event (i : InnerClass) : ClassEvent := .innerClass i

namespace ClassDecl

/-- The source event, when either string is there. -/
def sourceEvents (c : ClassDecl) : List ClassEvent :=
  if c.sourceFile.isSome || c.sourceDebug.isSome then [.source c.sourceFile c.sourceDebug] else []

/-- The events that build the class: header, source, module, nest host, outer
class, metadata, nest members, permitted subtypes, inner classes, components,
fields, methods, and the end. -/
def events (c : ClassDecl) : List ClassEvent :=
  [.header c.toClassHeader] ++
    c.sourceEvents ++
    (c.moduleInfo.map ModuleDecl.event).toList ++
    (c.nestHost.map .nestHost).toList ++
    (c.outerClass.map .outerClass).toList ++
    c.metadata.events.map .member ++
    c.nestMembers.toList.map .nestMember ++
    c.permittedSubtypes.toList.map .permittedSubtype ++
    c.innerClasses.map InnerClass.event ++
    c.components.toList.map ComponentDecl.event ++
    c.fields.values.map FieldDecl.event ++
    c.methods.values.map MethodDecl.event ++
    [.member .finish]

end ClassDecl

end ClassTree

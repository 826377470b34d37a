/-
# Building classes from events

A class is built by a sequence of class events. An event that opens a member,
a module or an annotation carries the events of its interior, so that a
sequence is the tree of everything that is said about a class, in order.
Any order is accepted and nothing has to be finished.

A class absorbs the opening of a table or list entry by storing a blank
entity at once and then editing it in its slot.

Key definitions: `ClassEvent`, `ClassDecl.absorb`, `ClassDecl.absorbAll`,
`ClassDecl.notices`.
-/
import ClassTree.Class.Basic

namespace ClassTree

/-- One step in the construction of a class. -/
inductive ClassEvent
  | header (h : ClassHeader)
  | source (file debug : Option String)
  /-- Opens the module, whose directives `body` builds. -/
  | moduleInfo (head : ModuleHead) (body : List ModuleEvent)
  | nestHost (name : String)
  | outerClass (o : OuterClass)
  | member (e : MemberEvent)
  | nestMember (name : String)
  | permittedSubtype (name : String)
  | innerClass (i : InnerClass)
  /-- Opens a record component, whose interior `body` builds. -/
  | component (head : ComponentHead) (body : List MemberEvent)
  /-- Opens a field, whose interior `body` builds. -/
  | field (head : FieldHead) (body : List MemberEvent)
  /-- Opens a method, whose interior `body` builds. -/
  | method (head : MethodHead) (body : List MethodEvent)

namespace ClassDecl

/-- The class after an event. -/
def absorb (c : ClassDecl) : ClassEvent → ClassDecl
  | .header h => { c with toClassHeader := h }
  | .source file debug => { c with sourceFile := file, sourceDebug := debug }
  | .moduleInfo head body =>
    { c with moduleInfo := some ((ModuleDecl.blank head).absorbAll body) }
  | .nestHost name => { c with nestHost := some name }
  | .outerClass o => { c with outerClass := some o }
  | .member e => { c with metadata := c.metadata.absorb e }
  | .nestMember name => { c with nestMembers := c.nestMembers.push name }
  | .permittedSubtype name => { c with permittedSubtypes := c.permittedSubtypes.push name }
  | .innerClass i => { c with innerClasses := c.innerClasses ++ [i] }
  | .component head body =>
    { c with
      components := (c.components.push (.blank head c.policy)).modifyLast (·.absorbAll body) }
  | .field head body =>
    { c with
      fields := (c.fields.insert head.name (.blank head c.policy)).modify head.name
        (·.absorbAll body) }
  | .method head body =>
    { c with
      methods := (c.methods.insert head.key (.blank head c.policy)).modify head.key
        (·.absorbAll body) }

/-- The class after a sequence of events. -/
def absorbAll (c : ClassDecl) (es : List ClassEvent) : ClassDecl := es.foldl absorb c

/-- What the class reports while it absorbs an event. -/
def notices (c : ClassDecl) : ClassEvent → List Notice
  | .member e => c.metadata.notices e
  | .component head body => (ComponentDecl.blank head c.policy).noticesAll body
  | .field head body =>
    (if c.fields.contains head.name then [.fieldReplaced head.name c.name] else []) ++
      (FieldDecl.blank head c.policy).noticesAll body
  | .method head body =>
    (if c.methods.contains head.key then [.methodReplaced head.key.text c.name] else []) ++
      (MethodDecl.blank head c.policy).noticesAll body
  | _ => []

/-- What the class reports while it absorbs a sequence of events. -/
def noticesAll (c : ClassDecl) (es : List ClassEvent) : List Notice :=
  reportAll absorb notices c es

end ClassDecl

end ClassTree

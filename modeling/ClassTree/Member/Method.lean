/-
# Methods

A method is declared by its head and identified within its class by name and
descriptor. It carries parameters, the default value of an annotation
interface element, metadata and a handle on its instruction body. The body is
never looked at: two handles are equal (`==`) only when they stand for the
same body, whatever the bodies hold.

Key definitions: `MethodKey`, `MethodHead`, `MethodDecl`, `MethodEvent`,
`MethodDecl.absorb`, `MethodDecl.body`, `MethodDecl.inspect`.
-/
import ClassTree.Access
import ClassTree.Metadata

namespace ClassTree

/-- What identifies a method within its class. -/
structure MethodKey where
  name : String
  descriptor : String
  deriving DecidableEq, Repr

/-- The key as text, the name directly followed by the descriptor. -/
def MethodKey.text (k : MethodKey) : String := k.name ++ k.descriptor

/-- Keys are ordered by name, then by descriptor. -/
instance : Ord MethodKey :=
  ⟨fun k l => (compare k.name l.name).then (compare k.descriptor l.descriptor)⟩

/-- A handle on an instruction body: which body it is, and the bytes that it
holds, if it holds any. -/
structure Code where
  id : Nat
  bytes : Option (List UInt8)
  deriving Repr

/-- Handles are equal when they stand for the same body. -/
instance : BEq Code := ⟨fun a b => a.id == b.id⟩

/-- A declared parameter. -/
structure Parameter where
  name : Option String
  access : Access
  deriving DecidableEq, Repr

/-- What declares a method. -/
structure MethodHead where
  access : Access
  name : String
  descriptor : String
  signature : Option String
  exceptions : List String
  deriving DecidableEq, Repr

/-- The identity of the declared method. -/
def MethodHead.key (h : MethodHead) : MethodKey := ⟨h.name, h.descriptor⟩

/-- A method: its head and its interior. -/
structure MethodDecl extends MethodHead where
  parameters : AttrList Parameter
  annotDefault : Option ValueArray
  metadata : Metadata
  code : Option Code

instance : BEq MethodDecl :=
  ⟨fun m n => m.toMethodHead == n.toMethodHead && m.parameters == n.parameters &&
    m.annotDefault == n.annotDefault && m.metadata == n.metadata && m.code == n.code⟩

/-- One step in the construction of a method. -/
inductive MethodEvent
  | member (e : MemberEvent)
  | parameter (p : Parameter)
  /-- Opens the default value, whose items `body` builds. -/
  | annotDefault (body : List ElementEvent)
  | code (c : Code)

namespace MethodDecl

/-- A method without an interior. -/
def blank (head : MethodHead) (policy : ReplacePolicy) : MethodDecl :=
  ⟨head, .absent, none, .blank policy, none⟩

/-- The default value: the first item, if there is one. -/
def defaultValue? (m : MethodDecl) : Option ElementValue := m.annotDefault.bind (·.items.head?)

/-- Gives a policy to everything inside the method. -/
def setPolicy (p : ReplacePolicy) (m : MethodDecl) : MethodDecl :=
  { m with
    metadata := m.metadata.setPolicy p
    annotDefault := m.annotDefault.map (ValueArray.setPolicy p) }

/-- The method after an event. -/
def absorb (m : MethodDecl) : MethodEvent → MethodDecl
  | .member e => { m with metadata := m.metadata.absorb e }
  | .parameter p => { m with parameters := m.parameters.push p }
  | .annotDefault body =>
    { m with
      annotDefault := some (ValueArray.absorbAll (ValueArray.blank m.metadata.policy) body) }
  | .code c => { m with code := some c }

/-- The method after a sequence of events. -/
def absorbAll (m : MethodDecl) (es : List MethodEvent) : MethodDecl := es.foldl absorb m

/-- What the method reports while it absorbs an event. -/
def notices (m : MethodDecl) : MethodEvent → List Notice
  | .member e => m.metadata.notices e
  | .annotDefault body => ValueArray.noticesAll (ValueArray.blank m.metadata.policy) body
  | .parameter _ => []
  | .code _ => []

/-- What the method reports while it absorbs a sequence of events. -/
def noticesAll (m : MethodDecl) (es : List MethodEvent) : List Notice :=
  reportAll absorb notices m es

/-- The events that build the interior of the method: parameters, default
value, metadata, body handle. -/
def body (m : MethodDecl) : List MethodEvent :=
  m.parameters.toList.map .parameter ++
    (m.annotDefault.map fun r => MethodEvent.annotDefault (ValueArray.events r)).toList ++
    m.metadata.events.map .member ++
    (m.code.map .code).toList ++
    [.member .finish]

/-- Checks the parameters and the type annotations, then descends. The body
is not looked at. -/
def inspect (m : MethodDecl) (t : Tier) : Check Unit := do
  require t .methodParameters (!m.parameters.isEmpty) m.name
  m.metadata.inspectTypes t m.name
  m.metadata.inspectInside t
  m.annotDefault.toList.forM (ValueArray.inspect t)

end MethodDecl

end ClassTree

/-
# Replays that prune

The receiver of a replay may decline to look inside an entity: it has seen
the opening, and the interior is skipped. A gate says which openings are
entered, for the openings of the class itself and for those further inside.
What passes a gate is the same event tree with the interiors of declined
openings emptied (`ClassEvent.through`), and the declined openings are
reported (`ClassEvent.declined`), those inside annotation values apart. A
target that is built through a gate reports as well: at every depth, what it
replaces is reported first and the skipped interior next, before the event
after it (`ClassDecl.gateNotices`).

Key definitions: `Opening`, `Gate`, `ClassEvent.through`,
`ClassEvent.declined`, `ClassDecl.absorbThrough`, `ClassDecl.gateNotices`,
`ClassDecl.noticesThrough`.
-/
import ClassTree.Class.Replay

namespace ClassTree

/-- An event that opens an interior, as a gate sees it: its kind, and the name
or descriptor of what is opened. -/
inductive Opening
  | moduleInfo (name : String)
  | annot (descriptor : String)
  | typeAnnot (descriptor : String)
  | component (name : String)
  | field (name : String)
  | method (signature : String)
  | annotDefault
  | elementArray (name : String)
  | elementAnnot (name : String)
  deriving DecidableEq, Repr

/-- Which openings are entered: those of the class itself, and those inside. -/
structure Gate where
  outer : Opening → Bool
  inner : Opening → Bool

namespace Gate

/-- Enters everything. -/
def wide : Gate := ⟨fun _ => true, fun _ => true⟩

/-- Enters nothing. -/
def shut : Gate := ⟨fun _ => false, fun _ => false⟩

/-- Enters the openings of the class and nothing inside them. -/
def shallow : Gate := ⟨fun _ => true, fun _ => false⟩

/-- Declines some openings of the class; whatever is entered is entered whole. -/
def pruning (declines : Opening → Bool) : Gate := ⟨fun o => !declines o, fun _ => true⟩

/-- Declines some openings at every depth. -/
def pruningDeep (declines : Opening → Bool) : Gate := ⟨fun o => !declines o, fun o => !declines o⟩

end Gate

/-! ### What passes -/

mutual

/-- The event with the interiors of declined openings emptied. -/
def ElementEvent.through (enter : Opening → Bool) : ElementEvent → ElementEvent
  | .annot name d body =>
    .annot name d (if enter (.elementAnnot name) then ElementEvent.throughAll enter body else [])
  | .array name body =>
    .array name (if enter (.elementArray name) then ElementEvent.throughAll enter body else [])
  | e => e

/-- The events with the interiors of declined openings emptied. -/
def ElementEvent.throughAll (enter : Opening → Bool) : List ElementEvent → List ElementEvent
  | [] => []
  | e :: es => ElementEvent.through enter e :: ElementEvent.throughAll enter es

end

/-- The opening that the event makes. -/
def ElementEvent.opening? : ElementEvent → Option Opening
  | .annot name _ _ => some (.elementAnnot name)
  | .array name _ => some (.elementArray name)
  | _ => none

namespace MemberEvent

/-- The opening that the event makes. -/
def opening? : MemberEvent → Option Opening
  | .annot d _ _ => some (.annot d)
  | .typeAnnot _ _ d _ _ => some (.typeAnnot d)
  | .extension _ => none
  | .finish => none

/-- The event with the interiors of declined openings emptied. -/
def through (enter inner : Opening → Bool) : MemberEvent → MemberEvent
  | .annot d visible body =>
    .annot d visible (if enter (.annot d) then ElementEvent.throughAll inner body else [])
  | .typeAnnot ref path d visible body =>
    .typeAnnot ref path d visible
      (if enter (.typeAnnot d) then ElementEvent.throughAll inner body else [])
  | e => e

/-- Reports the declined opening. -/
def declined (enter : Opening → Bool) : MemberEvent → List Notice
  | .annot d _ _ => if enter (.annot d) then [] else [.annotPruned d]
  | .typeAnnot _ _ d _ _ => if enter (.typeAnnot d) then [] else [.typeAnnotPruned d]
  | _ => []

end MemberEvent

namespace MethodEvent

/-- The opening that the event makes. -/
def opening? : MethodEvent → Option Opening
  | .member e => e.opening?
  | .annotDefault _ => some .annotDefault
  | _ => none

/-- The event with the interiors of declined openings emptied. -/
def through (enter : Opening → Bool) : MethodEvent → MethodEvent
  | .member e => .member (e.through enter enter)
  | .annotDefault body =>
    .annotDefault (if enter .annotDefault then ElementEvent.throughAll enter body else [])
  | e => e

/-- Reports the declined openings. -/
def declined (enter : Opening → Bool) : MethodEvent → List Notice
  | .member e => e.declined enter
  | _ => []

end MethodEvent

namespace ClassEvent

/-- The opening that the event makes. -/
def opening? : ClassEvent → Option Opening
  | .moduleInfo head _ => some (.moduleInfo head.name)
  | .component head _ => some (.component head.name)
  | .field head _ => some (.field head.name)
  | .method head _ => some (.method head.key.text)
  | .member e => e.opening?
  | _ => none

/-- The event with the interiors of declined openings emptied. -/
def through (g : Gate) : ClassEvent → ClassEvent
  | .moduleInfo head body => .moduleInfo head (if g.outer (.moduleInfo head.name) then body else [])
  | .component head body =>
    .component head
      (if g.outer (.component head.name) then body.map (·.through g.inner g.inner) else [])
  | .field head body =>
    .field head (if g.outer (.field head.name) then body.map (·.through g.inner g.inner) else [])
  | .method head body =>
    .method head (if g.outer (.method head.key.text) then body.map (·.through g.inner) else [])
  | .member e => .member (e.through g.outer g.inner)
  | e => e

/-- Reports the declined openings, in the order in which they are met. -/
def declined (g : Gate) : ClassEvent → List Notice
  | .moduleInfo head _ =>
    if g.outer (.moduleInfo head.name) then [] else [.modulePruned head.name]
  | .component head body =>
    if g.outer (.component head.name) then body.flatMap (·.declined g.inner)
    else [.componentPruned head.name]
  | .field head body =>
    if g.outer (.field head.name) then body.flatMap (·.declined g.inner)
    else [.fieldPruned head.name]
  | .method head body =>
    if g.outer (.method head.key.text) then body.flatMap (·.declined g.inner)
    else [.methodPruned head.key.text]
  | .member e => e.declined g.outer
  | _ => []

end ClassEvent

/-! ### Building through a gate -/

namespace Metadata

/-- What an event that passes a gate on its way into metadata reports: what it
replaces, then a skipped interior. -/
def gateNotices (enter inner : Opening → Bool) (m : Metadata) (e : MemberEvent) : List Notice :=
  m.notices (e.through enter inner) ++ e.declined enter

/-- What the interior of a member reports while events pass a gate into it. -/
def noticesThrough (enter : Opening → Bool) (m : Metadata) (es : List MemberEvent) : List Notice :=
  reportAll (fun m e => m.absorb (e.through enter enter)) (gateNotices enter enter) m es

end Metadata

namespace MethodDecl

/-- What an event that passes a gate on its way into a method reports. -/
def gateNotices (enter : Opening → Bool) (m : MethodDecl) (e : MethodEvent) : List Notice :=
  m.notices (e.through enter) ++ e.declined enter

/-- What a method reports while events pass a gate into it. -/
def noticesThrough (enter : Opening → Bool) (m : MethodDecl) (es : List MethodEvent) :
    List Notice :=
  reportAll (fun m e => m.absorb (e.through enter)) (gateNotices enter) m es

end MethodDecl

namespace ClassDecl

/-- The target after events were replayed into it through a gate. -/
def absorbThrough (target : ClassDecl) (g : Gate) (es : List ClassEvent) : ClassDecl :=
  target.absorbAll (es.map (·.through g))

/-- What an event that passes a gate on its way into a class reports. The
opening comes first, then the interior as it is built, or that it is skipped. -/
def gateNotices (g : Gate) (c : ClassDecl) : ClassEvent → List Notice
  | .moduleInfo head _ =>
    if g.outer (.moduleInfo head.name) then [] else [.modulePruned head.name]
  | .member e => c.metadata.gateNotices g.outer g.inner e
  | .component head body =>
    if g.outer (.component head.name) then (Metadata.blank c.policy).noticesThrough g.inner body
    else [.componentPruned head.name]
  | .field head body =>
    c.notices (.field head []) ++
      if g.outer (.field head.name) then (Metadata.blank c.policy).noticesThrough g.inner body
      else [.fieldPruned head.name]
  | .method head body =>
    c.notices (.method head []) ++
      if g.outer (.method head.key.text) then
        (MethodDecl.blank head c.policy).noticesThrough g.inner body
      else [.methodPruned head.key.text]
  | _ => []

/-- What a replay into a target through a gate reports. -/
def noticesThrough (target : ClassDecl) (g : Gate) (es : List ClassEvent) : List Notice :=
  reportAll (fun c e => c.absorb (e.through g)) (gateNotices g) target es

end ClassDecl

/-! ### Gates that enter everything

They let every event pass as it is and decline nothing. -/

mutual

theorem ElementEvent.through_true : ∀ e : ElementEvent, e.through (fun _ => true) = e
  | .annot name d body => by
    rw [ElementEvent.through, if_pos rfl, ElementEvent.throughAll_true body]
  | .array name body => by
    rw [ElementEvent.through, if_pos rfl, ElementEvent.throughAll_true body]
  | .value _ _ => rfl
  | .enum _ _ _ => rfl
  | .finish => rfl

theorem ElementEvent.throughAll_true : ∀ es : List ElementEvent,
    ElementEvent.throughAll (fun _ => true) es = es
  | [] => rfl
  | e :: es => by
    rw [ElementEvent.throughAll, ElementEvent.through_true e, ElementEvent.throughAll_true es]

end

theorem MemberEvent.through_true (e : MemberEvent) :
    e.through (fun _ => true) (fun _ => true) = e := by
  cases e <;> simp [MemberEvent.through, ElementEvent.throughAll_true]

theorem MemberEvent.declined_true (e : MemberEvent) : e.declined (fun _ => true) = [] := by
  cases e <;> rfl

theorem MethodEvent.through_true (e : MethodEvent) : e.through (fun _ => true) = e := by
  cases e <;> simp [MethodEvent.through, ElementEvent.throughAll_true, MemberEvent.through_true]

theorem MethodEvent.declined_true (e : MethodEvent) : e.declined (fun _ => true) = [] := by
  cases e with
  | member e => exact e.declined_true
  | _ => rfl

theorem Metadata.noticesThrough_true (m : Metadata) (es : List MemberEvent) :
    m.noticesThrough (fun _ => true) es = m.noticesAll es := by
  unfold noticesThrough gateNotices noticesAll
  simp only [MemberEvent.through_true, MemberEvent.declined_true, List.append_nil]

theorem MethodDecl.noticesThrough_true (m : MethodDecl) (es : List MethodEvent) :
    m.noticesThrough (fun _ => true) es = m.noticesAll es := by
  unfold noticesThrough gateNotices noticesAll
  simp only [MethodEvent.through_true, MethodEvent.declined_true, List.append_nil]

end ClassTree

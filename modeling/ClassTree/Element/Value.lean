/-
# Annotations and their values

An annotation is a descriptor, a visibility flag and a table of named
elements. An element is a primitive, a string, a class literal, an enum
constant, a nested annotation or an array of values. Tables and arrays carry
the policy that the values built inside them inherit.

Values nest through annotations and arrays, so each function on them comes
with its companions on entry lists and item lists, and proofs go by
`ElementValue.induct`, which assumes a property of the values inside.

Key definitions: `Constant`, `ElementValue`, `Annot`, `ValueArray`,
`ElementValue.beq`, `ElementValue.setPolicy`, `ElementValue.inspect`.
-/
import ClassTree.AttrList
import ClassTree.Binary
import ClassTree.Check
import ClassTree.Table

namespace ClassTree

/-- The initial value of a field. -/
inductive Constant
  | int (n : Int32)
  | float (x : Binary32)
  | long (n : Int64)
  | double (x : Binary64)
  | string (s : String)
  deriving Repr

/-- Constants of one kind are compared by value, floating-point ones as numbers. -/
def Constant.beq : Constant → Constant → Bool
  | .int m, .int n => m == n
  | .float x, .float y => x == y
  | .long m, .long n => m == n
  | .double x, .double y => x == y
  | .string s, .string t => s == t
  | _, _ => false

instance : BEq Constant := ⟨Constant.beq⟩

/-- An annotation over a type of element values. -/
structure AnnotOf (ν : Type u) where
  descriptor : String
  visible : Bool
  elements : Table String ν

/-- An array over a type of element values, with the policy that values built
inside it inherit. -/
structure ArrayOf (ν : Type u) where
  items : List ν
  policy : ReplacePolicy

instance [BEq ν] : BEq (AnnotOf ν) :=
  ⟨fun a b => a.descriptor == b.descriptor && a.visible == b.visible && a.elements == b.elements⟩

instance [BEq ν] : BEq (ArrayOf ν) := ⟨fun a b => a.items == b.items⟩

/-- The value of an annotation element. -/
inductive ElementValue
  | byte (n : Int8)
  | boolean (b : Bool)
  /-- A character, as its 16-bit code unit. -/
  | char (unit : UInt16)
  | short (n : Int16)
  | int (n : Int32)
  | long (n : Int64)
  | float (x : Binary32)
  | double (x : Binary64)
  | string (s : String)
  | classLiteral (descriptor : String)
  | enum (descriptor constant : String)
  | annot (a : AnnotOf ElementValue)
  | array (r : ArrayOf ElementValue)

/-- An annotation: a descriptor, a visibility flag and named elements. The
flag of a nested annotation has no meaning. -/
abbrev Annot := AnnotOf ElementValue

/-- The items of an array-valued element, or the default of an annotation
interface method. -/
abbrev ValueArray := ArrayOf ElementValue

/-- An annotation without elements. -/
def Annot.blank (descriptor : String) (visible : Bool) (policy : ReplacePolicy) : Annot :=
  ⟨descriptor, visible, .empty policy⟩

/-- An array without items. -/
def ValueArray.blank (policy : ReplacePolicy) : ValueArray := ⟨[], policy⟩

namespace ElementValue

/-- Induction on values: a property holds of all values if it holds of the
plain ones, of an annotation whose element values have it, and of an array
whose items have it. -/
@[elab_as_elim]
theorem induct {P : ElementValue → Prop}
    (byte : ∀ n, P (byte n)) (boolean : ∀ b, P (boolean b)) (char : ∀ u, P (char u))
    (short : ∀ n, P (short n)) (int : ∀ n, P (int n)) (long : ∀ n, P (long n))
    (float : ∀ x, P (float x)) (double : ∀ x, P (double x)) (string : ∀ s, P (string s))
    (classLiteral : ∀ d, P (classLiteral d)) (enum : ∀ d c, P (enum d c))
    (annot : ∀ a : Annot, (∀ e ∈ a.elements.entries, P e.2) → P (annot a))
    (array : ∀ r : ValueArray, (∀ v ∈ r.items, P v) → P (array r)) (v : ElementValue) : P v :=
  @ElementValue.rec P
    (fun a => ∀ e ∈ a.elements.entries, P e.2) (fun r => ∀ v ∈ r.items, P v)
    (fun t => ∀ e ∈ t.entries, P e.2) (fun vs => ∀ v ∈ vs, P v)
    (fun es => ∀ e ∈ es, P e.2) (fun e => P e.2)
    byte boolean char short int long float double string classLiteral enum annot array
    (fun _ _ _ h => h) (fun _ _ h => h) (fun _ _ h => h)
    (fun _ h => nomatch h)
    (fun _ _ hv hvs _ h => (List.mem_cons.mp h).elim (fun e => e ▸ hv) (hvs _))
    (fun _ h => nomatch h)
    (fun _ _ he hes _ h => (List.mem_cons.mp h).elim (fun e => e ▸ he) (hes _))
    (fun _ _ h => h) v

/-! ### Equality

Structure and order count, policies do not. -/

mutual

/-- Values of one kind are compared by content. -/
def beq : ElementValue → ElementValue → Bool
  | .byte m, .byte n => m == n
  | .boolean b, .boolean c => b == c
  | .char m, .char n => m == n
  | .short m, .short n => m == n
  | .int m, .int n => m == n
  | .long m, .long n => m == n
  | .float x, .float y => x == y
  | .double x, .double y => x == y
  | .string s, .string t => s == t
  | .classLiteral d, .classLiteral d' => d == d'
  | .enum d c, .enum d' c' => d == d' && c == c'
  | .annot ⟨d, v, ⟨es, _⟩⟩, .annot ⟨d', v', ⟨es', _⟩⟩ => d == d' && v == v' && beqEntries es es'
  | .array ⟨vs, _⟩, .array ⟨vs', _⟩ => beqItems vs vs'
  | _, _ => false

/-- Named elements are compared in order, names and values. -/
def beqEntries : List (String × ElementValue) → List (String × ElementValue) → Bool
  | [], [] => true
  | (k, v) :: es, (k', v') :: es' => (k == k' && beq v v') && beqEntries es es'
  | _, _ => false

/-- Items are compared in order. -/
def beqItems : List ElementValue → List ElementValue → Bool
  | [], [] => true
  | v :: vs, v' :: vs' => beq v v' && beqItems vs vs'
  | _, _ => false

end

instance : BEq ElementValue := ⟨beq⟩

theorem beqEntries_eq : ∀ es es' : List (String × ElementValue), beqEntries es es' = (es == es')
  | [], [] | [], _ :: _ | _ :: _, [] => rfl
  | (_, _) :: es, (_, _) :: es' => by rw [beqEntries, beqEntries_eq es es']; rfl

theorem beqItems_eq : ∀ vs vs' : List ElementValue, beqItems vs vs' = (vs == vs')
  | [], [] | [], _ :: _ | _ :: _, [] => rfl
  | _ :: vs, _ :: vs' => by rw [beqItems, beqItems_eq vs vs']; rfl

/-- Nested annotations are compared as annotations. -/
theorem annot_beq_annot (a b : Annot) : (annot a == annot b) = (a == b) := by
  obtain ⟨d, v, ⟨es, p⟩⟩ := a
  obtain ⟨d', v', ⟨es', p'⟩⟩ := b
  show (d == d' && v == v' && beqEntries es es') = _
  rw [beqEntries_eq]
  rfl

/-- Nested arrays are compared as arrays. -/
theorem array_beq_array (r s : ValueArray) : (array r == array s) = (r == s) := by
  obtain ⟨vs, p⟩ := r
  obtain ⟨vs', p'⟩ := s
  show beqItems vs vs' = _
  rw [beqItems_eq]
  rfl

/-! ### Policies -/

mutual

/-- Gives a policy to every table and array of a value. -/
def setPolicy (p : ReplacePolicy) : ElementValue → ElementValue
  | .annot ⟨d, v, ⟨es, _⟩⟩ => .annot ⟨d, v, ⟨setPolicyEntries p es, p⟩⟩
  | .array ⟨vs, _⟩ => .array ⟨setPolicyItems p vs, p⟩
  | v => v

/-- Gives a policy to every table and array below named elements. -/
def setPolicyEntries (p : ReplacePolicy) :
    List (String × ElementValue) → List (String × ElementValue)
  | [] => []
  | (k, v) :: es => (k, setPolicy p v) :: setPolicyEntries p es

/-- Gives a policy to every table and array below items. -/
def setPolicyItems (p : ReplacePolicy) : List ElementValue → List ElementValue
  | [] => []
  | v :: vs => setPolicy p v :: setPolicyItems p vs

end

theorem setPolicyEntries_eq_map (p : ReplacePolicy) :
    ∀ es, setPolicyEntries p es = es.map fun e => (e.1, setPolicy p e.2)
  | [] => rfl
  | (_, _) :: es => by simp [setPolicyEntries, setPolicyEntries_eq_map p es]

theorem setPolicyItems_eq_map (p : ReplacePolicy) : ∀ vs, setPolicyItems p vs = vs.map (setPolicy p)
  | [] => rfl
  | _ :: vs => by simp [setPolicyItems, setPolicyItems_eq_map p vs]

/-! ### Checks

No value is tied to a tier by itself; the walk descends into nested
annotations and arrays, in order. -/

mutual

/-- Checks a value and everything inside it against a tier. -/
def inspect (t : Tier) : ElementValue → Check Unit
  | .annot ⟨_, _, ⟨es, _⟩⟩ => inspectEntries t es
  | .array ⟨vs, _⟩ => inspectItems t vs
  | _ => pure ()

/-- Checks named elements in order. -/
def inspectEntries (t : Tier) : List (String × ElementValue) → Check Unit
  | [] => pure ()
  | (_, v) :: es => do inspect t v; inspectEntries t es

/-- Checks items in order. -/
def inspectItems (t : Tier) : List ElementValue → Check Unit
  | [] => pure ()
  | v :: vs => do inspect t v; inspectItems t vs

end

end ElementValue

namespace Annot

/-- Gives a policy to the annotation and to everything inside it. -/
def setPolicy (p : ReplacePolicy) (a : Annot) : Annot :=
  { a with elements := ⟨ElementValue.setPolicyEntries p a.elements.entries, p⟩ }

/-- Checks the element values in order. -/
def inspect (t : Tier) (a : Annot) : Check Unit := ElementValue.inspectEntries t a.elements.entries

end Annot

namespace ValueArray

/-- Gives a policy to the array and to everything inside it. -/
def setPolicy (p : ReplacePolicy) (r : ValueArray) : ValueArray :=
  ⟨ElementValue.setPolicyItems p r.items, p⟩

/-- Checks the items in order. -/
def inspect (t : Tier) (r : ValueArray) : Check Unit := ElementValue.inspectItems t r.items

end ValueArray

end ClassTree

/-
# Type paths

A type path leads to the annotated part of a type. Its text writes `[` for
an array element, `.` for a nested type, `*` for a wildcard bound and a
decimal index followed by `;` for a type argument.

The reader walks the characters once. Between two characters it is either
between steps or inside an index, where it holds the position of the first
digit and the value so far; the value is tested after each further digit, so
it never exceeds 2559. Positions count the bytes of the text in UTF-8.

Key definitions: `TypePath`, `TypePath.text`, `TypePath.Reader`,
`TypePath.Reader.feed`, `TypePath.ofText`, `TypePath.Error`.
-/
namespace ClassTree

namespace TypePath

/-- What a step of a path goes into. -/
inductive Kind
  | arrayElement
  | innerType
  | wildcardBound
  | typeArgument
  deriving DecidableEq, Repr

namespace Kind

/-- All kinds; a kind's code is its position. -/
def all : List Kind := [arrayElement, innerType, wildcardBound, typeArgument]

/-- The number that stands for the kind in the class format. -/
def code : Kind → Nat
  | arrayElement => 0
  | innerType => 1
  | wildcardBound => 2
  | typeArgument => 3

/-- The kind with a given number. -/
def ofCode? (n : Nat) : Option Kind := all.find? (·.code == n)

theorem ofCode?_code : ∀ k : Kind, ofCode? k.code = some k
  | arrayElement | innerType | wildcardBound | typeArgument => rfl

end Kind

/-- One step of a path. The argument is the index of a type argument; for the
other kinds it carries nothing and is zero in a path read from text. -/
structure Step where
  kind : Kind
  argument : UInt8
  deriving DecidableEq, Repr

/-- Why a text is not a type path. -/
inductive Error
  | unexpected (found : Char) (position : Nat)
  | unterminated (position : Nat)
  | outOfRange (index : UInt32)
  deriving DecidableEq, Repr

/-- The wording of an error. -/
def Error.message : Error → String
  | unexpected found position =>
    "Unexpected character `" ++ found.toString ++ "` at position " ++ toString position ++
      " in type path."
  | unterminated position =>
    "Type argument index starting at position " ++ toString position ++
      " is not terminated by `;`."
  | outOfRange index =>
    "Type argument index " ++ toString index.toNat ++ " exceeds the maximum of 255."

end TypePath

/-- The way to a part of a type. -/
structure TypePath where
  steps : List TypePath.Step
  deriving DecidableEq, Repr

namespace TypePath

/-- The characters of one step. -/
def Step.chars : Step → List Char
  | ⟨.arrayElement, _⟩ => ['[']
  | ⟨.innerType, _⟩ => ['.']
  | ⟨.wildcardBound, _⟩ => ['*']
  | ⟨.typeArgument, i⟩ => Nat.toDigits 10 i.toNat ++ [';']

/-- The path as text. -/
def text (p : TypePath) : String := String.ofList (p.steps.flatMap Step.chars)

/-- The value of a decimal digit. -/
def digit (c : Char) : UInt32 := c.val - 48

/-- An index that is being read: where its first digit stands, and its value so far. -/
structure Pending where
  start : Nat
  value : UInt32

/-- The reader between two characters: the byte position of the next one, the index
that is being read, and the steps read so far. -/
structure Reader where
  position : Nat
  pending : Option Pending
  steps : List Step

namespace Reader

/-- The reader before the first character. -/
def start : Reader := ⟨0, none, []⟩

/-- The reader after a character that completes a step. -/
def emit (r : Reader) (c : Char) (s : Step) : Reader :=
  ⟨r.position + c.utf8Size, none, r.steps ++ [s]⟩

/-- The reader after a digit of an index. -/
def hold (r : Reader) (c : Char) (p : Pending) : Reader :=
  ⟨r.position + c.utf8Size, some p, r.steps⟩

/-- The reader after one more character. -/
def feed (r : Reader) (c : Char) : Except Error Reader :=
  match r.pending with
  | none =>
    if c = '[' then .ok (r.emit c ⟨.arrayElement, 0⟩)
    else if c = '.' then .ok (r.emit c ⟨.innerType, 0⟩)
    else if c = '*' then .ok (r.emit c ⟨.wildcardBound, 0⟩)
    else if c.isDigit then .ok (r.hold c ⟨r.position, digit c⟩)
    else .error (.unexpected c r.position)
  | some p =>
    if c = ';' then .ok (r.emit c ⟨.typeArgument, p.value.toUInt8⟩)
    else if c.isDigit then
      if p.value * 10 + digit c > 255 then .error (.outOfRange (p.value * 10 + digit c))
      else .ok (r.hold c ⟨p.start, p.value * 10 + digit c⟩)
    else .error (.unexpected c r.position)

/-- The reader after more characters. -/
def run (r : Reader) : List Char → Except Error Reader
  | [] => .ok r
  | c :: cs => r.feed c >>= fun r => r.run cs

/-- The path at the end of the text. -/
def finish (r : Reader) : Except Error TypePath :=
  match r.pending with
  | none => .ok ⟨r.steps⟩
  | some p => .error (.unterminated p.start)

end Reader

/-- The path that a text denotes. -/
def ofText (s : String) : Except Error TypePath := Reader.start.run s.toList >>= Reader.finish

end TypePath

end ClassTree

/-
# Access flags

The access word of a class, member, parameter or module entry is 32 bits.
Eighteen bits have names, some of them several, because the meaning of a bit
depends on the entity that carries it; the other bits are kept as they are.

A word is taken apart by walking the names in the order of `Access.named`:
a name is listed when all its bits are set and some of them have not been
listed yet, so of several names for one bit only the first appears.

Key definitions: `Access`, `Access.named`, `Access.names`, `Access.pieces`,
`Access.text`.
-/
namespace ClassTree

/-- An access word. -/
structure Access where
  bits : UInt32
  deriving DecidableEq, Repr

namespace Access

/-- The named flags, in the order in which a word lists them. -/
def named : List (String × UInt32) :=
  [("PUBLIC", 0x0001),
   ("PRIVATE", 0x0002),
   ("PROTECTED", 0x0004),
   ("STATIC", 0x0008),
   ("FINAL", 0x0010),
   ("SUPER", 0x0020),
   ("SYNCHRONIZED", 0x0020),
   ("OPEN", 0x0020),
   ("TRANSITIVE", 0x0020),
   ("VOLATILE", 0x0040),
   ("BRIDGE", 0x0040),
   ("STATIC_PHASE", 0x0040),
   ("VARARGS", 0x0080),
   ("TRANSIENT", 0x0080),
   ("NATIVE", 0x0100),
   ("INTERFACE", 0x0200),
   ("ABSTRACT", 0x0400),
   ("STRICT", 0x0800),
   ("SYNTHETIC", 0x1000),
   ("ANNOTATION", 0x2000),
   ("ENUM", 0x4000),
   ("MANDATED", 0x8000),
   ("MODULE", 0x8000),
   ("RECORD", 0x10000),
   ("DEPRECATED", 0x20000)]

/-- The word without flags. -/
def empty : Access := ⟨0⟩

/-- The word with every bit set. -/
def full : Access := ⟨0xffffffff⟩

/-- Marks a class as a record. -/
def record : Access := ⟨0x10000⟩

/-- The flag with a given name. -/
def ofName? (name : String) : Option Access := (named.lookup name).map Access.mk

/-- All bits of `b` are set in `a`. -/
def contains (a b : Access) : Bool := a.bits &&& b.bits == b.bits

/-- Some bit of `b` is set in `a`. -/
def intersects (a b : Access) : Bool := a.bits &&& b.bits != 0

def isEmpty (a : Access) : Bool := a.bits == 0

def isFull (a : Access) : Bool := a.contains full

/-- The bits of either word. -/
def union (a b : Access) : Access := ⟨a.bits ||| b.bits⟩

/-- The bits of both words. -/
def inter (a b : Access) : Access := ⟨a.bits &&& b.bits⟩

/-- The bits of exactly one of the words. -/
def symmDiff (a b : Access) : Access := ⟨a.bits ^^^ b.bits⟩

/-- The bits of `a` that `b` does not have. -/
def diff (a b : Access) : Access := ⟨a.bits &&& ~~~b.bits⟩

/-- The bits that `a` does not have. -/
def compl (a : Access) : Access := ⟨~~~a.bits⟩

/-- Walks `flags` and lists those that `a` has in full and that still show
something of `left`, the bits not listed so far; ends with the bits that no
name took. -/
def walk (a : Access) : List (String × UInt32) → Access → List (String × Access) × Access
  | [], left => ([], left)
  | (name, bits) :: flags, left =>
    if a.contains ⟨bits⟩ && left.intersects ⟨bits⟩ then
      let rest := walk a flags (left.diff ⟨bits⟩)
      ((name, ⟨bits⟩) :: rest.1, rest.2)
    else walk a flags left

/-- The flags of a word by name, one name a bit. -/
def names (a : Access) : List (String × Access) := (walk a named a).1

/-- The bits of a word that have no name. -/
def unnamed (a : Access) : Access := (walk a named a).2

/-- A word taken apart: its named flags, then its unnamed bits as one piece. -/
def pieces (a : Access) : List Access :=
  a.names.map (·.2) ++ if a.unnamed.isEmpty then [] else [a.unnamed]

/-- A word in hexadecimal. -/
def hex (a : Access) : String := "0x" ++ String.ofList (Nat.toDigits 16 a.bits.toNat)

/-- The word as text: its names and the hexadecimal of its unnamed bits,
separated by bars. -/
def text (a : Access) : String :=
  let words := a.names.map (·.1) ++ if a.unnamed.isEmpty then [] else [a.unnamed.hex]
  "AccessFlags(" ++ (if words.isEmpty then a.hex else " | ".intercalate words) ++ ")"

end Access

end ClassTree

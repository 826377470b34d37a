/-
# Hexadecimal text

Numbers and bytes written in hexadecimal digits. Digits are written in lower
case and read in either case.

Key definitions: `Hex.digits`, `Hex.digit?`, `Hex.number?`, `Hex.ofBytes`,
`Hex.bytes?`.
-/
namespace ClassTree

namespace Hex

/-- The digits of a number, with zeros in front up to a width. -/
def digits (width n : Nat) : List Char :=
  List.replicate (width - (Nat.toDigits 16 n).length) '0' ++ Nat.toDigits 16 n

/-- The value of a digit. -/
def digit? (c : Char) : Option Nat :=
  if c.isDigit then some (c.toNat - 48)
  else if 'a' ≤ c && c ≤ 'f' then some (c.toNat - 87)
  else if 'A' ≤ c && c ≤ 'F' then some (c.toNat - 55)
  else none

/-- The number that digits write. -/
def number? (ds : List Char) : Option Nat :=
  (ds.mapM digit?).map fun vs => vs.foldl (fun n v => 16 * n + v) 0

theorem digit?_digitChar {n : Nat} : n < 16 → digit? n.digitChar = some n := by
  revert n
  decide

/-- One digit more at the end. -/
theorem number?_concat (ds : List Char) (c : Char) :
    number? (ds ++ [c]) = (number? ds).bind fun n => (digit? c).map fun v => 16 * n + v := by
  cases hds : ds.mapM digit? <;> cases hc : digit? c <;> simp [number?, hds, hc]

/-- A number is read back from its digits. -/
theorem number?_toDigits (n : Nat) : number? (Nat.toDigits 16 n) = some n := by
  induction n using Nat.strongRecOn with
  | ind n ih =>
    by_cases h : n < 16
    · simp [Nat.toDigits_of_lt_base h, number?, digit?_digitChar h]
    · have hlast : n % 16 < 16 := Nat.mod_lt n (by decide)
      rw [Nat.toDigits_of_base_le (by decide) (Nat.le_of_not_lt h), number?_concat,
        ih (n / 16) (by omega), digit?_digitChar hlast]
      simp [Nat.div_add_mod]

/-- The digits of a number are digits. -/
theorem isSome_digit?_of_mem_toDigits {n : Nat} {c : Char} (hc : c ∈ Nat.toDigits 16 n) :
    (digit? c).isSome = true := by
  induction n using Nat.strongRecOn with
  | ind n ih =>
    by_cases h : n < 16
    · rw [Nat.toDigits_of_lt_base h, List.mem_singleton] at hc
      simp [hc, digit?_digitChar h]
    · rw [Nat.toDigits_of_base_le (by decide) (Nat.le_of_not_lt h), List.mem_append,
        List.mem_singleton] at hc
      rcases hc with hc | rfl
      · exact ih (n / 16) (by omega) hc
      · simp [digit?_digitChar (Nat.mod_lt n (by decide))]

/-- Bytes, two digits a byte. -/
def ofBytes (bytes : List UInt8) : List Char := bytes.flatMap fun b => digits 2 b.toNat

/-- The bytes that pairs of digits write. -/
def bytes? : List Char → Option (List UInt8)
  | [] => some []
  | a :: b :: ds => return UInt8.ofNat (← number? [a, b]) :: (← bytes? ds)
  | [_] => none

end Hex

end ClassTree

/-
# The numbers behind floating-point constants

A word of a binary interchange format is a sign, a biased exponent and a
fraction. It stands for a number (`FloatFormat.number?`): an infinity, or a
rational with one leading binary digit in front of the fraction, or with none if
the exponent field is zero. Words whose exponent field is full and whose fraction
is not zero stand for no number; they are the NaNs.

Constants are compared by their bits (`==`). That this is the comparison of the
numbers they stand for (`Binary32.beq_iff_sameNumber`) comes down to one fact: up
to the sign of zero, no number has two words. Finite numbers are multiples of the
least positive one, and as the word without its sign grows, so does the multiple
(`FloatFormat.units_strictMono`).

Key definitions: `FloatFormat`, `FloatNumber`, `FloatFormat.number?`,
`Binary32.SameNumber`, `Binary64.SameNumber`.
-/
import ClassTree.Proofs.Comparison
import Mathlib.Algebra.Order.Field.Rat
import Mathlib.Algebra.Order.Ring.Nat
import Mathlib.Data.Nat.Bitwise
import Mathlib.Tactic.FieldSimp
import Mathlib.Tactic.Linarith
import Mathlib.Tactic.Positivity
import Mathlib.Tactic.Ring

namespace ClassTree

/-- How a word is laid out: from its low end a fraction and a biased exponent of
so many bits, and a sign in front. -/
structure FloatFormat where
  fractionBits : ℕ
  exponentBits : ℕ
  exponentBits_pos : 0 < exponentBits := by decide

/-- What a word can stand for. There is one zero. -/
inductive FloatNumber
  | infinite (negative : Bool)
  | finite (q : ℚ)

namespace FloatFormat

/-- The format of 32 bits. -/
def single : FloatFormat := { fractionBits := 23, exponentBits := 8 }

/-- The format of 64 bits. -/
def double : FloatFormat := { fractionBits := 52, exponentBits := 11 }

variable (F : FloatFormat)

def fraction (word : ℕ) : ℕ := word % 2 ^ F.fractionBits

/-- The exponent field, which is the exponent and a bias. -/
def exponent (word : ℕ) : ℕ := word / 2 ^ F.fractionBits % 2 ^ F.exponentBits

def negative (word : ℕ) : Bool := word / 2 ^ (F.fractionBits + F.exponentBits) % 2 = 1

def sign (word : ℕ) : ℚ := if F.negative word then -1 else 1

def bias : ℤ := 2 ^ (F.exponentBits - 1) - 1

/-- The number that a word stands for, if it stands for one. -/
def number? (word : ℕ) : Option FloatNumber :=
  if F.exponent word = 2 ^ F.exponentBits - 1 then
    if F.fraction word = 0 then some (.infinite (F.negative word)) else none
  else if F.exponent word = 0 then
    some (.finite (F.sign word * (F.fraction word / 2 ^ F.fractionBits) * 2 ^ (1 - F.bias)))
  else
    some (.finite (F.sign word * (1 + F.fraction word / 2 ^ F.fractionBits) *
      2 ^ (F.exponent word - F.bias)))

/-! ### Words without their sign -/

/-- The word without its sign. -/
def magnitude (word : ℕ) : ℕ := word % 2 ^ (F.fractionBits + F.exponentBits)

theorem exponent_eq (word : ℕ) : F.exponent word = F.magnitude word / 2 ^ F.fractionBits := by
  unfold exponent magnitude
  rw [pow_add, Nat.mod_mul_right_div_self]

theorem fraction_eq (word : ℕ) : F.fraction word = F.magnitude word % 2 ^ F.fractionBits := by
  unfold fraction magnitude
  rw [pow_add, Nat.mod_mul_right_mod]

/-- The multiple of the least positive number that a magnitude stands for. -/
def units (m : ℕ) : ℕ :=
  if m / 2 ^ F.fractionBits = 0 then m % 2 ^ F.fractionBits
  else (2 ^ F.fractionBits + m % 2 ^ F.fractionBits) * 2 ^ (m / 2 ^ F.fractionBits - 1)

theorem units_lt (m : ℕ) : F.units m < 2 ^ (F.fractionBits + m / 2 ^ F.fractionBits) := by
  have hmod : m % 2 ^ F.fractionBits < 2 ^ F.fractionBits := Nat.mod_lt _ (by positivity)
  unfold units
  split_ifs with h
  · rw [h, Nat.add_zero]
    exact hmod
  · obtain ⟨e, he⟩ := Nat.exists_eq_add_one_of_ne_zero h
    rw [he, Nat.add_sub_cancel]
    calc (2 ^ F.fractionBits + m % 2 ^ F.fractionBits) * 2 ^ e
        < (2 ^ F.fractionBits + 2 ^ F.fractionBits) * 2 ^ e := by gcongr
      _ = 2 ^ (F.fractionBits + (e + 1)) := by ring

theorem le_units {m : ℕ} (h : m / 2 ^ F.fractionBits ≠ 0) :
    2 ^ (F.fractionBits + (m / 2 ^ F.fractionBits - 1)) ≤ F.units m := by
  unfold units
  rw [if_neg h, pow_add]
  gcongr
  omega

/-- A greater word stands for a greater number: the next exponent begins where the
fractions of the one before end. -/
theorem units_strictMono : StrictMono F.units := by
  intro m n hmn
  have hdiv : m / 2 ^ F.fractionBits ≤ n / 2 ^ F.fractionBits := Nat.div_le_div_right hmn.le
  rcases hdiv.lt_or_eq with hlt | heq
  · have hn : n / 2 ^ F.fractionBits ≠ 0 := Nat.ne_zero_of_lt hlt
    calc F.units m < 2 ^ (F.fractionBits + m / 2 ^ F.fractionBits) := F.units_lt m
      _ ≤ 2 ^ (F.fractionBits + (n / 2 ^ F.fractionBits - 1)) :=
        Nat.pow_le_pow_right two_pos (Nat.add_le_add_left (Nat.le_sub_one_of_lt hlt) _)
      _ ≤ F.units n := F.le_units hn
  · have hmod : m % 2 ^ F.fractionBits < n % 2 ^ F.fractionBits := by
      have hm := Nat.div_add_mod m (2 ^ F.fractionBits)
      have hn := Nat.div_add_mod n (2 ^ F.fractionBits)
      rw [heq] at hm
      omega
    unfold units
    rw [heq]
    split_ifs
    · exact hmod
    · gcongr

theorem units_eq_zero_iff (m : ℕ) : F.units m = 0 ↔ m = 0 := by
  have hzero : F.units 0 = 0 := by simp [units]
  constructor
  · intro h
    exact F.units_strictMono.injective (h.trans hzero.symm)
  · rintro rfl
    exact hzero

/-! ### Words and numbers -/

/-- A word with a full exponent field and a fraction stands for no number. -/
def IsNaN (word : ℕ) : Prop :=
  F.exponent word = 2 ^ F.exponentBits - 1 ∧ F.fraction word ≠ 0

theorem number?_eq_none_iff (word : ℕ) : F.number? word = none ↔ F.IsNaN word := by
  unfold number? IsNaN
  split_ifs with hfull hfraction hzero
  · simp [hfraction]
  · simp [hfull, hfraction]
  · simp [hfull]
  · simp [hfull]

/-- Finite numbers are counted in units of the least positive one. -/
theorem number?_of_finite {word : ℕ} (h : F.exponent word ≠ 2 ^ F.exponentBits - 1) :
    F.number? word = some (.finite (F.sign word * F.units (F.magnitude word) *
      2 ^ (1 - F.bias - F.fractionBits))) := by
  unfold number? units
  rw [if_neg h, ← F.exponent_eq, ← F.fraction_eq]
  have hpow : (2 : ℚ) ^ (1 - F.bias - F.fractionBits) = 2 ^ (1 - F.bias) / 2 ^ F.fractionBits := by
    rw [zpow_sub₀ two_ne_zero, zpow_natCast]
  split_ifs with hzero
  · rw [hpow]
    congr 2
    ring
  · obtain ⟨e, he⟩ := Nat.exists_eq_add_one_of_ne_zero hzero
    have hexp : (2 : ℚ) ^ (((e + 1 : ℕ) : ℤ) - F.bias) = 2 ^ e * 2 ^ (1 - F.bias) := by
      rw [← zpow_natCast, ← zpow_add₀ two_ne_zero]
      congr 1
      push_cast
      ring
    rw [he, hexp, hpow, Nat.add_sub_cancel]
    congr 2
    push_cast
    field_simp

theorem signed_eq_signed_iff {s t : ℚ} (hs : s = 1 ∨ s = -1) (ht : t = 1 ∨ t = -1) (m n : ℕ) :
    s * m = t * n ↔ m = n ∧ (s = t ∨ m = 0) := by
  have hm : (0 : ℚ) ≤ m := Nat.cast_nonneg m
  have hn : (0 : ℚ) ≤ n := Nat.cast_nonneg n
  have hmn : m = n ↔ (m : ℚ) = n := Nat.cast_inj.symm
  have hm₀ : m = 0 ↔ (m : ℚ) = 0 := Nat.cast_eq_zero.symm
  rw [hmn, hm₀]
  rcases hs with rfl | rfl <;> rcases ht with rfl | rfl
  · simp
  · constructor
    · intro h
      exact ⟨by linarith, Or.inr (by linarith)⟩
    · rintro ⟨h, hst | hzero⟩
      · norm_num at hst
      · linarith
  · constructor
    · intro h
      exact ⟨by linarith, Or.inr (by linarith)⟩
    · rintro ⟨h, hst | hzero⟩
      · norm_num at hst
      · linarith
  · simp

theorem sign_cases (word : ℕ) : F.sign word = 1 ∨ F.sign word = -1 := by
  unfold sign
  split_ifs
  · exact Or.inr rfl
  · exact Or.inl rfl

theorem sign_eq_sign_iff (v w : ℕ) : F.sign v = F.sign w ↔ F.negative v = F.negative w := by
  unfold sign
  cases F.negative v <;> cases F.negative w <;> norm_num

/-- A word is its sign and its magnitude. -/
theorem word_eq_iff {v w : ℕ} (hv : v < 2 ^ (F.fractionBits + F.exponentBits + 1))
    (hw : w < 2 ^ (F.fractionBits + F.exponentBits + 1)) :
    v = w ↔ F.negative v = F.negative w ∧ F.magnitude v = F.magnitude w := by
  constructor
  · rintro rfl
    exact ⟨rfl, rfl⟩
  · rintro ⟨hsign, hmag⟩
    unfold negative at hsign
    unfold magnitude at hmag
    set k := 2 ^ (F.fractionBits + F.exponentBits) with hk
    have hpow : 2 ^ (F.fractionBits + F.exponentBits + 1) = k * 2 := pow_succ ..
    rw [hpow] at hv hw
    have hv₂ : v / k < 2 := Nat.div_lt_of_lt_mul hv
    have hw₂ : w / k < 2 := Nat.div_lt_of_lt_mul hw
    have hdiv : v / k = w / k := by
      rw [decide_eq_decide, Nat.mod_eq_of_lt hv₂, Nat.mod_eq_of_lt hw₂] at hsign
      generalize v / k = a at *
      generalize w / k = b at *
      omega
    rw [← Nat.div_add_mod v k, ← Nat.div_add_mod w k, hdiv, hmag]

theorem magnitude_ne_zero_of_full {word : ℕ} (h : F.exponent word = 2 ^ F.exponentBits - 1) :
    F.magnitude word ≠ 0 := by
  intro hzero
  have hbits : 2 ^ 1 ≤ 2 ^ F.exponentBits := Nat.pow_le_pow_right two_pos F.exponentBits_pos
  rw [F.exponent_eq, hzero, Nat.zero_div] at h
  omega

/-- Infinities have the same magnitude. -/
theorem magnitude_of_infinite {word : ℕ} (hfull : F.exponent word = 2 ^ F.exponentBits - 1)
    (hfraction : F.fraction word = 0) :
    F.magnitude word = 2 ^ F.fractionBits * (2 ^ F.exponentBits - 1) := by
  rw [← Nat.div_add_mod (F.magnitude word) (2 ^ F.fractionBits), ← F.exponent_eq, ← F.fraction_eq,
    hfull, hfraction, Nat.add_zero]

/-- **Up to the sign of zero, a number has one word.** -/
theorem number?_eq_number?_iff {v w : ℕ} (hv : v < 2 ^ (F.fractionBits + F.exponentBits + 1))
    (hw : w < 2 ^ (F.fractionBits + F.exponentBits + 1)) (hvn : ¬ F.IsNaN v) (hwn : ¬ F.IsNaN w) :
    F.number? v = F.number? w ↔ v = w ∨ F.magnitude v = 0 ∧ F.magnitude w = 0 := by
  have hinfinite : ∀ {word : ℕ}, ¬ F.IsNaN word → F.exponent word = 2 ^ F.exponentBits - 1 →
      F.fraction word = 0 ∧ F.number? word = some (.infinite (F.negative word)) := by
    intro word hnan hfull
    have hfraction : F.fraction word = 0 := by
      by_contra hne
      exact hnan ⟨hfull, hne⟩
    exact ⟨hfraction, by rw [number?, if_pos hfull, if_pos hfraction]⟩
  have hexponent : F.magnitude v = F.magnitude w → F.exponent v = F.exponent w := by
    intro h
    rw [F.exponent_eq, F.exponent_eq, h]
  rw [F.word_eq_iff hv hw]
  by_cases hvfull : F.exponent v = 2 ^ F.exponentBits - 1
  · obtain ⟨hvfraction, hvnumber⟩ := hinfinite hvn hvfull
    have hvzero := F.magnitude_ne_zero_of_full hvfull
    by_cases hwfull : F.exponent w = 2 ^ F.exponentBits - 1
    · obtain ⟨hwfraction, hwnumber⟩ := hinfinite hwn hwfull
      rw [hvnumber, hwnumber, Option.some.injEq, FloatNumber.infinite.injEq,
        F.magnitude_of_infinite hvfull hvfraction, F.magnitude_of_infinite hwfull hwfraction]
      rw [F.magnitude_of_infinite hvfull hvfraction] at hvzero
      simp [hvzero]
    · have hmag : F.magnitude v ≠ F.magnitude w := fun h => hwfull (hexponent h ▸ hvfull)
      rw [hvnumber, F.number?_of_finite hwfull]
      simp [hmag, hvzero]
  · by_cases hwfull : F.exponent w = 2 ^ F.exponentBits - 1
    · have hmag : F.magnitude v ≠ F.magnitude w := fun h => hvfull (hexponent h ▸ hwfull)
      rw [(hinfinite hwn hwfull).2, F.number?_of_finite hvfull]
      simp [hmag, F.magnitude_ne_zero_of_full hwfull]
    · have hunit : (2 : ℚ) ^ (1 - F.bias - F.fractionBits) ≠ 0 := zpow_ne_zero _ two_ne_zero
      rw [F.number?_of_finite hvfull, F.number?_of_finite hwfull, Option.some.injEq,
        FloatNumber.finite.injEq, mul_left_inj' hunit,
        signed_eq_signed_iff (F.sign_cases v) (F.sign_cases w), F.units_strictMono.injective.eq_iff,
        F.sign_eq_sign_iff, F.units_eq_zero_iff]
      constructor
      · rintro ⟨hmag, hsign | hzero⟩
        · exact Or.inl ⟨hsign, hmag⟩
        · exact Or.inr ⟨hzero, hmag ▸ hzero⟩
      · rintro (⟨hsign, hmag⟩ | ⟨hvzero, hwzero⟩)
        · exact ⟨hmag, Or.inl hsign⟩
        · exact ⟨hvzero.trans hwzero.symm, Or.inr hvzero⟩

/-- Two words stand for one number if neither is a NaN and they are the same word,
or if they are zeros. -/
theorem exists_number?_iff {v w : ℕ} (hv : v < 2 ^ (F.fractionBits + F.exponentBits + 1))
    (hw : w < 2 ^ (F.fractionBits + F.exponentBits + 1)) :
    (∃ n, F.number? v = some n ∧ F.number? w = some n) ↔
      ¬ F.IsNaN v ∧ ¬ F.IsNaN w ∧ (v = w ∨ F.magnitude v = 0 ∧ F.magnitude w = 0) := by
  constructor
  · rintro ⟨n, hvn, hwn⟩
    have hv₀ : ¬ F.IsNaN v := by rw [← F.number?_eq_none_iff, hvn]; exact Option.some_ne_none n
    have hw₀ : ¬ F.IsNaN w := by rw [← F.number?_eq_none_iff, hwn]; exact Option.some_ne_none n
    exact ⟨hv₀, hw₀, (F.number?_eq_number?_iff hv hw hv₀ hw₀).mp (hvn.trans hwn.symm)⟩
  · rintro ⟨hv₀, hw₀, h⟩
    have hvw := (F.number?_eq_number?_iff hv hw hv₀ hw₀).mpr h
    rw [← F.number?_eq_none_iff] at hv₀
    obtain ⟨n, hn⟩ := Option.ne_none_iff_exists'.mp hv₀
    exact ⟨n, hn, hvw ▸ hn⟩

/-- The NaNs are the words beyond the infinities. -/
theorem isNaN_iff (word : ℕ) :
    F.IsNaN word ↔ 2 ^ F.fractionBits * (2 ^ F.exponentBits - 1) < F.magnitude word := by
  have hexponent : F.exponent word ≤ 2 ^ F.exponentBits - 1 :=
    Nat.le_sub_one_of_lt (Nat.mod_lt _ (by positivity))
  have hfraction : F.fraction word < 2 ^ F.fractionBits := Nat.mod_lt _ (by positivity)
  have hsplit : 2 ^ F.fractionBits * F.exponent word + F.fraction word = F.magnitude word := by
    rw [F.exponent_eq, F.fraction_eq, Nat.div_add_mod]
  rw [← hsplit]
  unfold IsNaN
  rcases hexponent.lt_or_eq with hlt | heq
  · have hle : 2 ^ F.fractionBits * (F.exponent word + 1) ≤
        2 ^ F.fractionBits * (2 ^ F.exponentBits - 1) := Nat.mul_le_mul_left _ hlt
    rw [Nat.mul_succ] at hle
    exact iff_of_false (fun h => hlt.ne h.1) (by omega)
  · rw [heq]
    omega

end FloatFormat

/-! ### Constants -/

namespace Binary32

/-- The number that the constant stands for; a NaN stands for none. -/
def number? (x : Binary32) : Option FloatNumber := FloatFormat.single.number? x.bits.toNat

/-- The constants stand for the same number. -/
def SameNumber (x y : Binary32) : Prop := ∃ n, x.number? = some n ∧ y.number? = some n

theorem toNat_magnitude (x : Binary32) :
    x.magnitude.toNat = FloatFormat.single.magnitude x.bits.toNat := by
  unfold magnitude FloatFormat.magnitude
  rw [UInt32.toNat_and]
  exact Nat.and_two_pow_sub_one_eq_mod x.bits.toNat 31

theorem isNaN_iff (x : Binary32) : x.isNaN = true ↔ FloatFormat.single.IsNaN x.bits.toNat := by
  rw [FloatFormat.isNaN_iff, ← toNat_magnitude, isNaN, decide_eq_true_eq, UInt32.lt_iff_toNat_lt]
  rfl

theorem isZero_iff (x : Binary32) :
    x.isZero = true ↔ FloatFormat.single.magnitude x.bits.toNat = 0 := by
  rw [← toNat_magnitude, isZero, beq_iff_eq, ← UInt32.toNat_inj]
  rfl

/-- **Constants are compared as the numbers that they stand for.** -/
theorem beq_iff_sameNumber (x y : Binary32) : (x == y) = true ↔ x.SameNumber y := by
  have hbits : x = y ↔ x.bits.toNat = y.bits.toNat := by
    rw [UInt32.toNat_inj]
    exact ⟨congrArg bits, congrArg Binary32.mk⟩
  rw [beq_iff, ← Bool.not_eq_true, ← Bool.not_eq_true, isNaN_iff, isNaN_iff, isZero_iff, isZero_iff,
    hbits]
  exact (FloatFormat.single.exists_number?_iff x.bits.toNat_lt y.bits.toNat_lt).symm

/-- The two zeros are one number. -/
example : SameNumber ⟨0⟩ ⟨0x80000000⟩ := (beq_iff_sameNumber ..).mp (by decide)

end Binary32

namespace Binary64

/-- The number that the constant stands for; a NaN stands for none. -/
def number? (x : Binary64) : Option FloatNumber := FloatFormat.double.number? x.bits.toNat

/-- The constants stand for the same number. -/
def SameNumber (x y : Binary64) : Prop := ∃ n, x.number? = some n ∧ y.number? = some n

theorem toNat_magnitude (x : Binary64) :
    x.magnitude.toNat = FloatFormat.double.magnitude x.bits.toNat := by
  unfold magnitude FloatFormat.magnitude
  rw [UInt64.toNat_and]
  exact Nat.and_two_pow_sub_one_eq_mod x.bits.toNat 63

theorem isNaN_iff (x : Binary64) : x.isNaN = true ↔ FloatFormat.double.IsNaN x.bits.toNat := by
  rw [FloatFormat.isNaN_iff, ← toNat_magnitude, isNaN, decide_eq_true_eq, UInt64.lt_iff_toNat_lt]
  rfl

theorem isZero_iff (x : Binary64) :
    x.isZero = true ↔ FloatFormat.double.magnitude x.bits.toNat = 0 := by
  rw [← toNat_magnitude, isZero, beq_iff_eq, ← UInt64.toNat_inj]
  rfl

/-- **Constants are compared as the numbers that they stand for.** -/
theorem beq_iff_sameNumber (x y : Binary64) : (x == y) = true ↔ x.SameNumber y := by
  have hbits : x = y ↔ x.bits.toNat = y.bits.toNat := by
    rw [UInt64.toNat_inj]
    exact ⟨congrArg bits, congrArg Binary64.mk⟩
  rw [beq_iff, ← Bool.not_eq_true, ← Bool.not_eq_true, isNaN_iff, isNaN_iff, isZero_iff, isZero_iff,
    hbits]
  exact (FloatFormat.double.exists_number?_iff x.bits.toNat_lt y.bits.toNat_lt).symm

end Binary64

end ClassTree

/-
# The grammar of type paths

A type path is written as a sequence of tokens: one of three signs, or the digits
of an index that fits in a byte, any number of leading zeros included, and a
semicolon (`TypePath.Token`). No token is the start of another, so a text has at
most one decomposition (`TypePath.spelled_injective`).

The reader takes the text character by character (`TypePath.Reader.feed`). The
invariant that carries everything says where it stands after a text that it has
not refused: the text is a sequence of tokens followed by the digits of an index
that is not closed yet and still fits, the steps read are those of the tokens, and
the pending value is the number of the digits (`TypePath.Reader.standing`). One
more character completes a token, is one more digit, or is refused
(`feed_standing_token` and the lemmas after it), and by induction a text is read to
its end exactly if it is of this form (`run_spelled_append`, `standing_of_run`). The
value is tested after each digit, so before the next one it is at most 255 and
nothing that is computed from it wraps (`pending_exact`).

Key definitions: `TypePath.decimal`, `TypePath.Fits`, `TypePath.Numeral`,
`TypePath.Token`, `TypePath.spelled`, `TypePath.Reader.standing`.
-/
import ClassTree.TypePath
import Mathlib.Data.List.Induction

namespace ClassTree

/-! ### Computations that can fail -/

section
variable {ε α β : Type} {x : Except ε α} {f : α → Except ε β}

theorem bind_eq_ok_iff {b : β} : x >>= f = .ok b ↔ ∃ a, x = .ok a ∧ f a = .ok b := by
  cases x <;> simp [bind, Except.bind]

theorem bind_eq_error_iff {e : ε} :
    x >>= f = .error e ↔ x = .error e ∨ ∃ a, x = .ok a ∧ f a = .error e := by
  cases x <;> simp [bind, Except.bind]

end

namespace TypePath

/-! ### Digits -/

/-- The number that decimal digits denote. -/
def decimal (ds : List Char) : Nat := Nat.ofDigitChars 10 ds 0

@[simp] theorem decimal_nil : decimal [] = 0 := rfl

theorem decimal_concat (ds : List Char) (d : Char) :
    decimal (ds ++ [d]) = decimal ds * 10 + (d.toNat - 48) := by
  unfold decimal
  rw [Nat.ofDigitChars_append, Nat.ofDigitChars_cons, Nat.ofDigitChars_nil, Nat.mul_comm]
  rfl

/-- Digits whose number fits in a byte. -/
structure Fits (ds : List Char) : Prop where
  isDigit : ∀ d ∈ ds, d.isDigit = true
  le : decimal ds ≤ 255

theorem fits_nil : Fits [] := ⟨fun _ hd => absurd hd List.not_mem_nil, by simp⟩

theorem Fits.isDigit_concat {ds : List Char} {d : Char} (h : Fits ds) (hd : d.isDigit = true) :
    ∀ d' ∈ ds ++ [d], d'.isDigit = true := by
  intro d' hd'
  rcases List.mem_append.mp hd' with hd' | hd'
  · exact h.isDigit d' hd'
  · rwa [List.mem_singleton.mp hd']

/-- Fewer digits have a smaller number. -/
theorem Fits.of_concat {ds : List Char} {d : Char} (h : Fits (ds ++ [d])) :
    Fits ds ∧ d.isDigit = true := by
  have hle := h.le
  rw [decimal_concat] at hle
  exact ⟨⟨fun d' hd' => h.isDigit d' (List.mem_append_left _ hd'), by omega⟩,
    h.isDigit d (by simp)⟩

theorem toNat_digit {c : Char} (hc : c.isDigit = true) : (digit c).toNat = c.toNat - 48 := by
  have hle : (48 : UInt32) ≤ c.val :=
    UInt32.le_iff_toNat_le.mpr (Char.isDigit_iff_toNat.mp hc).1
  exact UInt32.toNat_sub_of_le _ _ hle

theorem digit_le {c : Char} (hc : c.isDigit = true) : c.toNat - 48 ≤ 9 := by
  have hle : c.toNat ≤ 57 := (Char.isDigit_iff_toNat.mp hc).2
  omega

theorem ne_of_isDigit {c : Char} (hc : c.isDigit = true) :
    c ≠ '[' ∧ c ≠ '.' ∧ c ≠ '*' ∧ c ≠ ';' := by
  refine ⟨?_, ?_, ?_, ?_⟩ <;> rintro rfl <;> exact absurd hc (by decide)

/-- One more digit after a value that fits: nothing wraps. -/
theorem toNat_mul_ten_add_digit {v : UInt32} {c : Char} (hv : v.toNat ≤ 255)
    (hc : c.isDigit = true) : (v * 10 + digit c).toNat = v.toNat * 10 + (c.toNat - 48) := by
  have hdigit := digit_le hc
  have hten : (10 : UInt32).toNat = 10 := rfl
  rw [UInt32.toNat_add, UInt32.toNat_mul, toNat_digit hc, hten]
  omega

/-! ### Tokens -/

/-- The digits of an index: at least one, and their number fits in a byte. -/
structure Numeral where
  digits : List Char
  nonempty : digits ≠ []
  fits : Fits digits

/-- One token of a type path. -/
inductive Token
  | arrayElement
  | innerType
  | wildcardBound
  | typeArgument (index : Numeral)

namespace Token

/-- How a token is written. -/
def chars : Token → List Char
  | arrayElement => ['[']
  | innerType => ['.']
  | wildcardBound => ['*']
  | typeArgument index => index.digits ++ [';']

/-- The step that a token stands for. -/
def step : Token → Step
  | arrayElement => ⟨.arrayElement, 0⟩
  | innerType => ⟨.innerType, 0⟩
  | wildcardBound => ⟨.wildcardBound, 0⟩
  | typeArgument index =>
    ⟨.typeArgument, .ofNatLT (decimal index.digits) (Nat.lt_succ_of_le index.fits.le)⟩

end Token

/-- How a sequence of tokens is written. -/
def spelled (ts : List Token) : List Char := ts.flatMap Token.chars

@[simp] theorem spelled_nil : spelled [] = [] := rfl

@[simp] theorem spelled_cons (t : Token) (ts : List Token) :
    spelled (t :: ts) = t.chars ++ spelled ts := rfl

theorem spelled_append (ts ts' : List Token) :
    spelled (ts ++ ts') = spelled ts ++ spelled ts' := List.flatMap_append

theorem Numeral.ext {i j : Numeral} (h : i.digits = j.digits) : i = j := by
  cases i
  cases j
  cases h
  rfl

/-- An index ends at the first character that is no digit. -/
theorem takeWhile_digits (i : Numeral) (rest : List Char) :
    (i.digits ++ ';' :: rest).takeWhile Char.isDigit = i.digits := by
  rw [List.takeWhile_append_of_pos i.fits.isDigit, List.takeWhile_cons_of_neg (by decide),
    List.append_nil]

/-- An index starts with a digit. -/
theorem Numeral.exists_cons (i : Numeral) : ∃ d ds, i.digits = d :: ds ∧ d.isDigit = true := by
  cases hi : i.digits with
  | nil => exact absurd hi i.nonempty
  | cons d ds => exact ⟨d, ds, rfl, i.fits.isDigit d (by simp [hi])⟩

/-- The first character of a token tells what kind it is. -/
theorem Token.chars_ne_sign {i : Numeral} {c : Char} {rest rest' : List Char}
    (hc : c.isDigit = false) : (typeArgument i).chars ++ rest ≠ c :: rest' := by
  obtain ⟨d, ds, hi, hd⟩ := i.exists_cons
  intro h
  simp only [chars, hi, List.cons_append, List.cons.injEq] at h
  rw [← h.1, hd] at hc
  cases hc

/-- No token is the start of another. -/
theorem Token.eq_of_chars_append {rest rest' : List Char} : ∀ {t t' : Token},
    t.chars ++ rest = t'.chars ++ rest' → t = t' ∧ rest = rest'
  | .typeArgument i, .typeArgument j, h => by
    simp only [chars, List.append_assoc, List.singleton_append] at h
    have hdigits : i.digits = j.digits := by
      rw [← takeWhile_digits i rest, h, takeWhile_digits j rest']
    rw [Numeral.ext hdigits] at h ⊢
    simpa using h
  | .typeArgument _, .arrayElement, h
  | .typeArgument _, .innerType, h
  | .typeArgument _, .wildcardBound, h => absurd h (chars_ne_sign (by decide))
  | .arrayElement, .typeArgument _, h
  | .innerType, .typeArgument _, h
  | .wildcardBound, .typeArgument _, h => absurd h.symm (chars_ne_sign (by decide))
  | .arrayElement, .arrayElement, h
  | .innerType, .innerType, h
  | .wildcardBound, .wildcardBound, h => ⟨rfl, by simpa [chars] using h⟩
  | .arrayElement, .innerType, h
  | .arrayElement, .wildcardBound, h
  | .innerType, .arrayElement, h
  | .innerType, .wildcardBound, h
  | .wildcardBound, .arrayElement, h
  | .wildcardBound, .innerType, h => by simp [chars] at h

theorem Token.chars_ne_nil (t : Token) : t.chars ≠ [] := by
  cases t <;> simp [chars]

/-- **A text is written by at most one sequence of tokens.** -/
theorem spelled_injective : ∀ {ts ts' : List Token}, spelled ts = spelled ts' → ts = ts'
  | [], [], _ => rfl
  | [], t :: ts, h => by simp [Token.chars_ne_nil] at h
  | t :: ts, [], h => by simp [Token.chars_ne_nil] at h
  | t :: ts, t' :: ts', h => by
    obtain ⟨rfl, hrest⟩ := Token.eq_of_chars_append h
    rw [spelled_injective hrest]

/-! ### The reader, character by character -/

namespace Reader

theorem run_cons_error {r : Reader} {c : Char} {e : Error} (h : r.feed c = .error e)
    (cs : List Char) : r.run (c :: cs) = .error e := by
  rw [run, h]
  rfl

theorem run_singleton (r : Reader) (c : Char) : r.run [c] = r.feed c := bind_pure (r.feed c)

theorem run_append (r : Reader) (cs cs' : List Char) :
    r.run (cs ++ cs') = r.run cs >>= fun r' => r'.run cs' := by
  induction cs generalizing r with
  | nil => rfl
  | cons c cs ih => simp only [List.cons_append, run, bind_assoc, ih]

theorem run_append_ok {r r' : Reader} {cs : List Char} (h : r.run cs = .ok r')
    (cs' : List Char) : r.run (cs ++ cs') = r'.run cs' := by
  rw [run_append, h]
  rfl

/-- A run that succeeds succeeded all the way. -/
theorem run_concat_eq_ok {r r' : Reader} {cs : List Char} {c : Char}
    (h : r.run (cs ++ [c]) = .ok r') : ∃ r₁, r.run cs = .ok r₁ ∧ r₁.feed c = .ok r' := by
  rw [run_append, bind_eq_ok_iff] at h
  simpa only [run_singleton] using h

end Reader

/-! ### Where the reader stands -/

/-- The bytes that characters take in UTF-8. -/
def bytes (cs : List Char) : Nat := (String.ofList cs).utf8ByteSize

theorem bytes_concat (cs : List Char) (c : Char) : bytes (cs ++ [c]) = bytes cs + c.utf8Size := by
  have hc : String.ofList [c] = String.singleton c := by
    rw [← String.toList_inj, String.toList_ofList, String.toList_singleton]
  unfold bytes
  rw [String.ofList_append, String.utf8ByteSize_append, hc, String.utf8ByteSize_singleton]

/-- The character neither starts a token after complete ones nor goes on with the
index whose digits were read. -/
structure Stuck (ds : List Char) (c : Char) : Prop where
  notDigit : c.isDigit = false
  notSign : ds = [] → c ∉ ['[', '.', '*']
  notEnd : ds ≠ [] → c ≠ ';'

/-- After digits that fit, a character completes a token, is a digit with which
they still fit or no longer do, or cannot go on. -/
theorem Fits.next_cases {ds : List Char} (hds : Fits ds) (c : Char) :
    (∃ t : Token, t.chars = ds ++ [c]) ∨ (c.isDigit = true ∧ decimal (ds ++ [c]) ≤ 255) ∨
      (c.isDigit = true ∧ 256 ≤ decimal (ds ++ [c])) ∨ Stuck ds c := by
  by_cases hc : c.isDigit = true
  · rcases Nat.lt_or_ge 255 (decimal (ds ++ [c])) with hle | hle
    · exact Or.inr (Or.inr (Or.inl ⟨hc, hle⟩))
    · exact Or.inr (Or.inl ⟨hc, hle⟩)
  · have hnot : c.isDigit = false := by simpa using hc
    by_cases hnil : ds = []
    · subst hnil
      by_cases hsign : c ∈ ['[', '.', '*']
      · refine Or.inl ?_
        simp only [List.mem_cons, List.not_mem_nil, or_false] at hsign
        rcases hsign with rfl | rfl | rfl
        · exact ⟨.arrayElement, rfl⟩
        · exact ⟨.innerType, rfl⟩
        · exact ⟨.wildcardBound, rfl⟩
      · exact Or.inr (Or.inr (Or.inr ⟨hnot, fun _ => hsign, fun hne => absurd rfl hne⟩))
    · by_cases hend : c = ';'
      · exact Or.inl ⟨.typeArgument ⟨ds, hnil, hds⟩, by rw [hend]; rfl⟩
      · exact Or.inr (Or.inr (Or.inr ⟨hnot, fun h => absurd h hnil, fun _ => hend⟩))

/-- A token is digits that fit, without the last character of the token. -/
theorem Token.chars_eq_concat (t : Token) : ∃ ds c, Fits ds ∧ t.chars = ds ++ [c] := by
  cases t with
  | typeArgument i => exact ⟨i.digits, ';', i.fits, rfl⟩
  | _ => exact ⟨[], _, fits_nil, rfl⟩

namespace Reader

/-- The reader after complete tokens and digits of one more index. -/
def standing (ts : List Token) (ds : List Char) : Reader where
  position := bytes (spelled ts ++ ds)
  pending := if ds = [] then none else some ⟨bytes (spelled ts), .ofNat (decimal ds)⟩
  steps := ts.map Token.step

theorem start_eq_standing : start = standing [] [] := rfl

@[simp] theorem position_standing (ts : List Token) (ds : List Char) :
    (standing ts ds).position = bytes (spelled ts ++ ds) := rfl

@[simp] theorem pending_standing_nil (ts : List Token) : (standing ts []).pending = none := rfl

theorem pending_standing {ts : List Token} {ds : List Char} (hds : ds ≠ []) :
    (standing ts ds).pending = some ⟨bytes (spelled ts), .ofNat (decimal ds)⟩ := if_neg hds

theorem toNat_ofNat_decimal {ds : List Char} (hds : Fits ds) :
    (UInt32.ofNat (decimal ds)).toNat = decimal ds := by
  have hle := hds.le
  exact UInt32.toNat_ofNat_of_lt' (by unfold UInt32.size; omega)

theorem next_value {ds : List Char} {c : Char} (hds : Fits ds) (hc : c.isDigit = true) :
    UInt32.ofNat (decimal ds) * 10 + digit c = UInt32.ofNat (decimal (ds ++ [c])) ∧
      (UInt32.ofNat (decimal (ds ++ [c]))).toNat = decimal (ds ++ [c]) := by
  have hle := hds.le
  have hdigit := digit_le hc
  have hsum : (UInt32.ofNat (decimal ds) * 10 + digit c).toNat = decimal (ds ++ [c]) := by
    rw [toNat_mul_ten_add_digit (by rw [toNat_ofNat_decimal hds]; exact hle) hc,
      toNat_ofNat_decimal hds, decimal_concat]
  have heq : UInt32.ofNat (decimal ds) * 10 + digit c = UInt32.ofNat (decimal (ds ++ [c])) := by
    rw [← hsum, UInt32.ofNat_toNat]
  exact ⟨heq, by rw [← heq, hsum]⟩

/-- A character that completes a token. -/
theorem feed_standing_token (ts : List Token) {t : Token} {ds : List Char} {c : Char}
    (ht : t.chars = ds ++ [c]) : (standing ts ds).feed c = .ok (standing (ts ++ [t]) []) := by
  have hposition : bytes (spelled ts ++ ds) + c.utf8Size = bytes (spelled (ts ++ [t]) ++ []) := by
    rw [← bytes_concat, List.append_assoc, ← ht, spelled_append]
    simp
  have hemit : ∀ s, t.step = s → (standing ts ds).emit c s = standing (ts ++ [t]) [] := by
    rintro s rfl
    simp [emit, standing, hposition]
  cases t with
  | typeArgument i =>
    obtain ⟨rfl, hc⟩ := List.append_inj' ht rfl
    obtain rfl : ';' = c := by simpa using hc
    have hbyte : (UInt32.ofNat (decimal i.digits)).toUInt8 =
        UInt8.ofNatLT (decimal i.digits) (Nat.lt_succ_of_le i.fits.le) := by
      have hle := i.fits.le
      rw [← UInt8.toNat_inj, UInt32.toNat_toUInt8, toNat_ofNat_decimal i.fits, UInt8.toNat_ofNatLT]
      omega
    rw [feed, pending_standing i.nonempty, ← hemit _ rfl]
    simp [hbyte, Token.step]
  | _ =>
    rw [← List.nil_append (Token.chars _)] at ht
    obtain ⟨rfl, hc⟩ := List.append_inj' ht rfl
    simp only [Token.chars, List.cons.injEq, and_true] at hc
    subst hc
    rw [feed, pending_standing_nil, ← hemit _ rfl]
    rfl

/-- A digit with which the index still fits. -/
theorem feed_standing_digit (ts : List Token) {ds : List Char} {c : Char} (hds : Fits ds)
    (hc : c.isDigit = true) (hle : decimal (ds ++ [c]) ≤ 255) :
    (standing ts ds).feed c = .ok (standing ts (ds ++ [c])) := by
  obtain ⟨hvalue, hexact⟩ := next_value hds hc
  have hnext : standing ts (ds ++ [c]) =
      (standing ts ds).hold c ⟨bytes (spelled ts), .ofNat (decimal (ds ++ [c]))⟩ := by
    simp [standing, hold, ← List.append_assoc, bytes_concat]
  rw [hnext, feed]
  by_cases hnil : ds = []
  · subst hnil
    have hfirst : digit c = UInt32.ofNat (decimal ([] ++ [c])) := by
      rw [← hvalue]
      simp
    simp [hc, ne_of_isDigit hc, hfirst]
  · have hsmall : ¬ UInt32.ofNat (decimal (ds ++ [c])) > 255 := by
      rw [gt_iff_lt, UInt32.lt_iff_toNat_lt, hexact]
      exact Nat.not_lt.mpr hle
    simp [pending_standing hnil, hc, ne_of_isDigit hc, hvalue, hsmall]

/-- A digit with which the index no longer fits. -/
theorem feed_standing_excess (ts : List Token) {ds : List Char} {c : Char} (hds : Fits ds)
    (hc : c.isDigit = true) (hge : 256 ≤ decimal (ds ++ [c])) :
    (standing ts ds).feed c = .error (.outOfRange (.ofNat (decimal (ds ++ [c])))) := by
  obtain ⟨hvalue, hexact⟩ := next_value hds hc
  have hnil : ds ≠ [] := by
    rintro rfl
    have hdigit := digit_le hc
    rw [decimal_concat, decimal_nil] at hge
    omega
  have hlarge : UInt32.ofNat (decimal (ds ++ [c])) > 255 := by
    rw [gt_iff_lt, UInt32.lt_iff_toNat_lt, hexact]
    exact hge
  rw [feed, pending_standing hnil]
  simp [hc, ne_of_isDigit hc, hvalue, hlarge]

/-- A character that cannot go on. -/
theorem feed_standing_stuck (ts : List Token) {ds : List Char} {c : Char} (hc : Stuck ds c) :
    (standing ts ds).feed c = .error (.unexpected c (bytes (spelled ts ++ ds))) := by
  rw [feed]
  by_cases hnil : ds = []
  · subst hnil
    have hsign := hc.notSign rfl
    simp only [List.mem_cons, List.not_mem_nil, or_false, not_or] at hsign
    simp [hc.notDigit, hsign]
  · simp [pending_standing hnil, hc.notDigit, hc.notEnd hnil]

/-! ### Runs -/

theorem run_digits (ts : List Token) {ds : List Char} (hds : Fits ds) :
    (standing ts []).run ds = .ok (standing ts ds) := by
  induction ds using List.reverseRecOn with
  | nil => rfl
  | append_singleton ds d ih =>
    obtain ⟨hfits, hd⟩ := hds.of_concat
    rw [run_append_ok (ih hfits), run_singleton, feed_standing_digit ts hfits hd hds.le]

theorem run_token (ts : List Token) (t : Token) :
    (standing ts []).run t.chars = .ok (standing (ts ++ [t]) []) := by
  obtain ⟨ds, c, hds, ht⟩ := t.chars_eq_concat
  rw [ht, run_append_ok (run_digits ts hds), run_singleton, feed_standing_token ts ht]

/-- Tokens and the digits of one more index are read to the end. -/
theorem run_spelled_append (ts : List Token) {ds : List Char} (hds : Fits ds) :
    start.run (spelled ts ++ ds) = .ok (standing ts ds) := by
  have htokens : start.run (spelled ts) = .ok (standing ts []) := by
    induction ts using List.reverseRecOn with
    | nil => rfl
    | append_singleton ts t ih =>
      rw [spelled_append, run_append_ok ih, spelled_cons, spelled_nil, List.append_nil, run_token]
  rw [run_append_ok htokens, run_digits ts hds]

/-- What is read to the end is tokens and the digits of one more index. -/
theorem standing_of_run {cs : List Char} {r : Reader} (h : start.run cs = .ok r) :
    ∃ ts ds, Fits ds ∧ cs = spelled ts ++ ds ∧ r = standing ts ds := by
  induction cs using List.reverseRecOn generalizing r with
  | nil =>
    cases h
    exact ⟨[], [], fits_nil, rfl, start_eq_standing⟩
  | append_singleton cs c ih =>
    obtain ⟨r₁, hrun, hfeed⟩ := run_concat_eq_ok h
    obtain ⟨ts, ds, hds, rfl, rfl⟩ := ih hrun
    rcases hds.next_cases c with ⟨t, ht⟩ | ⟨hc, hle⟩ | ⟨hc, hge⟩ | hc
    · rw [feed_standing_token ts ht] at hfeed
      cases hfeed
      exact ⟨ts ++ [t], [], fits_nil, by simp [spelled_append, ht], rfl⟩
    · rw [feed_standing_digit ts hds hc hle] at hfeed
      cases hfeed
      exact ⟨ts, ds ++ [c], ⟨hds.isDigit_concat hc, hle⟩, List.append_assoc .., rfl⟩
    · rw [feed_standing_excess ts hds hc hge] at hfeed
      cases hfeed
    · rw [feed_standing_stuck ts hc] at hfeed
      cases hfeed

theorem finish_standing_nil (ts : List Token) :
    (standing ts []).finish = .ok ⟨ts.map Token.step⟩ := rfl

theorem finish_standing {ts : List Token} {ds : List Char} (hds : ds ≠ []) :
    (standing ts ds).finish = .error (.unterminated (bytes (spelled ts))) := by
  rw [finish, pending_standing hds]

/-- An index that is being read fits in a byte, and one more digit does not make
the arithmetic wrap. -/
theorem pending_exact {u : List Char} {r : Reader} {q : Pending} (hrun : start.run u = .ok r)
    (hq : r.pending = some q) : q.value.toNat ≤ 255 ∧ q.value.toUInt8.toNat = q.value.toNat ∧
      ∀ c : Char, c.isDigit = true → (q.value * 10).toNat = q.value.toNat * 10 ∧
        (q.value * 10 + digit c).toNat = q.value.toNat * 10 + (c.toNat - 48) ∧
        (q.value * 10 + digit c).toNat ≤ 2559 := by
  obtain ⟨ts, ds, hds, -, rfl⟩ := standing_of_run hrun
  have hne : ds ≠ [] := by
    rintro rfl
    cases hq
  have hle : q.value.toNat ≤ 255 := by
    rw [pending_standing hne] at hq
    cases hq
    exact Nat.le_trans (Nat.le_of_eq (toNat_ofNat_decimal hds)) hds.le
  refine ⟨hle, ?_, fun c hc => ?_⟩
  · rw [UInt32.toNat_toUInt8]
    omega
  · have hten : (10 : UInt32).toNat = 10 := rfl
    have hdigit := digit_le hc
    have hsum := toNat_mul_ten_add_digit hle hc
    refine ⟨?_, hsum, by omega⟩
    rw [UInt32.toNat_mul, hten]
    omega

end Reader

/-! ### What is read -/

theorem ofText_of_run {s : String} {r : Reader} (h : Reader.start.run s.toList = .ok r) :
    ofText s = r.finish := by
  rw [ofText, h]
  rfl

theorem ofText_of_run_error {s : String} {e : Error} (h : Reader.start.run s.toList = .error e) :
    ofText s = .error e := by
  rw [ofText, h]
  rfl

theorem ofText_of_spelled {s : String} {ts : List Token} (h : s.toList = spelled ts) :
    ofText s = .ok ⟨ts.map Token.step⟩ := by
  have hrun := Reader.run_spelled_append ts fits_nil
  rw [List.append_nil, ← h] at hrun
  rw [ofText_of_run hrun, Reader.finish_standing_nil]

theorem ofText_eq_ok_iff {s : String} {p : TypePath} :
    ofText s = .ok p ↔ ∃ ts : List Token, s.toList = spelled ts ∧ p.steps = ts.map Token.step := by
  constructor
  · intro h
    rw [ofText, bind_eq_ok_iff] at h
    obtain ⟨r, hrun, hfinish⟩ := h
    obtain ⟨ts, ds, -, hs, rfl⟩ := Reader.standing_of_run hrun
    by_cases hds : ds = []
    · subst hds
      rw [Reader.finish_standing_nil] at hfinish
      cases hfinish
      exact ⟨ts, by simpa using hs, rfl⟩
    · rw [Reader.finish_standing hds] at hfinish
      cases hfinish
  · rintro ⟨ts, hs, hp⟩
    rw [ofText_of_spelled hs, ← hp]

/-- **A text is a type path if it is written in tokens, and then it means their
steps.** There is at most one way to write it so. The reader that finds it takes
one character at a time, and the value of the index that it holds is never wrapped:
it fits in a byte, and is at most 2559 after one more digit. -/
theorem ofText_reads_tokens (s : String) :
    (∀ p, ofText s = .ok p ↔
      ∃ ts : List Token, s.toList = spelled ts ∧ p.steps = ts.map Token.step) ∧
    (∀ ts ts' : List Token, s.toList = spelled ts → s.toList = spelled ts' → ts = ts') ∧
    ofText s = Reader.start.run s.toList >>= Reader.finish ∧
    ∀ u r q, u <+: s.toList → Reader.start.run u = .ok r → r.pending = some q →
      q.value.toNat ≤ 255 ∧ q.value.toUInt8.toNat = q.value.toNat ∧
      ∀ c : Char, c.isDigit = true → (q.value * 10).toNat = q.value.toNat * 10 ∧
        (q.value * 10 + digit c).toNat = q.value.toNat * 10 + (c.toNat - 48) ∧
        (q.value * 10 + digit c).toNat ≤ 2559 :=
  ⟨fun _ => ofText_eq_ok_iff, fun _ _ h h' => spelled_injective (h.symm.trans h'), rfl,
    fun _ _ _ _ hrun hq => Reader.pending_exact hrun hq⟩

/-- An index with a leading zero, before the semicolon that closes it. -/
theorem indexed_reads_tokens : ['[', '0', '2', '5'] <+: "[025;".toList ∧
    Reader.start.run ['[', '0', '2', '5'] = .ok ⟨4, some ⟨1, 25⟩, [⟨.arrayElement, 0⟩]⟩ ∧
    ((25 : UInt32) * 10 + digit '9').toNat ≤ 2559 ∧
    ∃ ts : List Token, "[025;".toList = spelled ts ∧
      ts.map Token.step = [⟨.arrayElement, 0⟩, ⟨.typeArgument, 25⟩] := by
  have hfront : ['[', '0', '2', '5'] <+: "[025;".toList := by decide
  have hrun : Reader.start.run ['[', '0', '2', '5'] =
      .ok ⟨4, some ⟨1, 25⟩, [⟨.arrayElement, 0⟩]⟩ := by rfl
  have hread : ofText "[025;" = .ok ⟨[⟨.arrayElement, 0⟩, ⟨.typeArgument, 25⟩]⟩ := by decide
  obtain ⟨hok, -, -, hexact⟩ := ofText_reads_tokens "[025;"
  obtain ⟨ts, hts, hsteps⟩ := (hok _).mp hread
  exact ⟨hfront, hrun, ((hexact _ _ _ hfront hrun rfl).2.2 '9' (by decide)).2.2, ts, hts,
    hsteps.symm⟩

end TypePath

end ClassTree

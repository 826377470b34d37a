/-
# Type paths and their text

Writing a path and reading it again keeps all that the text carries. The argument
of a step other than a type argument is not written, and comes back as zero
(`TypePath.normalized`). The other way round, an index may be written with zeros in
front, which are gone when the path is written again (`TypePath.Token.trimmed`).
Nothing else is lost in either direction: the text of a path is spelled in the
tokens of its steps (`TypePath.toList_text`), and a numeral written from the number
of some digits is these digits without the zeros in front (`toDigits_decimal`).

Key definitions: `TypePath.trimZeros`, `TypePath.Token.trimmed`,
`TypePath.Token.Minimal`, `TypePath.Step.token`, `TypePath.normalized`.
-/
import ClassTree.Proofs.PathGrammar

namespace ClassTree

namespace TypePath

/-! ### Zeros in front -/

/-- Digits without the zeros in front, of which one stays if nothing else is there. -/
def trimZeros (ds : List Char) : List Char :=
  match ds.dropWhile (· = '0') with
  | [] => ['0']
  | d :: rest => d :: rest

theorem decimal_dropWhile_zero (ds : List Char) :
    decimal (ds.dropWhile (· = '0')) = decimal ds := by
  induction ds with
  | nil => rfl
  | cons d ds ih =>
    by_cases hd : d = '0'
    · rw [List.dropWhile_cons_of_pos (by simpa using hd), ih, hd]
      rfl
    · rw [List.dropWhile_cons_of_neg (by simpa using hd)]

theorem digitChar_of_isDigit {c : Char} (hc : c.isDigit = true) :
    Nat.digitChar (c.toNat - 48) = c := by
  have hdigit := digit_le hc
  have hge : 48 ≤ c.toNat := (Char.isDigit_iff_toNat.mp hc).1
  rw [← Char.toNat_inj, Nat.toNat_digitChar_of_lt_ten (by omega)]
  omega

/-- Digits that do not start with a zero are those of their number. -/
theorem toDigits_decimal_cons {d : Char} {ds : List Char} (hd : d ≠ '0')
    (hds : ∀ c ∈ d :: ds, c.isDigit = true) : Nat.toDigits 10 (decimal (d :: ds)) = d :: ds := by
  induction ds using List.reverseRecOn with
  | nil =>
    have hdigit : d.isDigit = true := hds d (by simp)
    have hvalue : decimal [d] = d.toNat - 48 := by
      rw [← List.nil_append [d], decimal_concat]
      simp
    rw [hvalue, Nat.toDigits_of_lt_base (Nat.lt_succ_of_le (digit_le hdigit)),
      digitChar_of_isDigit hdigit]
  | append_singleton ds c ih =>
    have hc : c.isDigit = true := hds c (by simp)
    have hfront := ih fun c' hc' => hds c' (by
      rw [← List.cons_append]
      exact List.mem_append_left _ hc')
    -- a number of zero would be written with the zero that is excluded
    have hpos : 0 < decimal (d :: ds) := by
      refine Nat.pos_of_ne_zero fun hzero => ?_
      rw [hzero, Nat.toDigits_zero] at hfront
      simp only [List.cons.injEq] at hfront
      exact hd hfront.1.symm
    have hlast : Nat.toDigits 10 (c.toNat - 48) = [c] := by
      rw [Nat.toDigits_of_lt_base (Nat.lt_succ_of_le (digit_le hc)), digitChar_of_isDigit hc]
    rw [← List.cons_append, decimal_concat, Nat.mul_comm, ← Nat.toDigits_append_toDigits (by decide)
      hpos (Nat.lt_succ_of_le (digit_le hc)), hfront, hlast]

theorem ne_zero_of_dropWhile_zero {ds rest : List Char} {d : Char}
    (h : ds.dropWhile (· = '0') = d :: rest) : d ≠ '0' := by
  have hhead := List.head?_dropWhile_not (· = '0') ds
  simpa [h] using hhead

/-- **The number of some digits is written as these digits without the zeros in
front.** -/
theorem toDigits_decimal {ds : List Char} (hds : ∀ d ∈ ds, d.isDigit = true) :
    Nat.toDigits 10 (decimal ds) = trimZeros ds := by
  rw [← decimal_dropWhile_zero, trimZeros]
  cases hrest : ds.dropWhile (· = '0') with
  | nil => exact Nat.toDigits_zero 10
  | cons d rest =>
    refine toDigits_decimal_cons (ne_zero_of_dropWhile_zero hrest) fun c hc => hds c ?_
    exact (List.dropWhile_sublist _).subset (hrest ▸ hc)

theorem trimZeros_eq_self_iff {ds : List Char} (hne : ds ≠ []) :
    trimZeros ds = ds ↔ (ds.head? = some '0' → ds = ['0']) := by
  cases ds with
  | nil => exact absurd rfl hne
  | cons d ds =>
    by_cases hd : d = '0'
    · subst hd
      rw [trimZeros, List.dropWhile_cons_of_pos (by decide)]
      cases hrest : ds.dropWhile (· = '0') with
      | nil => simp [eq_comm]
      | cons d rest =>
        have hds : ds ≠ [] := by
          rintro rfl
          cases hrest
        simp [ne_zero_of_dropWhile_zero hrest, hds]
    · have hkeep : (d :: ds).dropWhile (· = '0') = d :: ds :=
        List.dropWhile_cons_of_neg (by simpa using hd)
      simp [trimZeros, hkeep, hd]

/-! ### Steps as tokens -/

/-- The numeral of a byte. -/
def Numeral.ofByte (b : UInt8) : Numeral where
  digits := Nat.toDigits 10 b.toNat
  nonempty := Nat.toDigits_ne_nil
  fits := by
    refine ⟨fun d hd => Nat.isDigit_of_mem_toDigits (by decide) (by decide) hd, ?_⟩
    rw [decimal, Nat.ofDigitChars_ten_toDigits]
    exact Nat.le_of_lt_succ b.toNat_lt

/-- The numeral without the zeros in front. -/
def Numeral.trimmed (i : Numeral) : Numeral where
  digits := trimZeros i.digits
  nonempty := by
    rw [← toDigits_decimal i.fits.isDigit]
    exact Nat.toDigits_ne_nil
  fits := by
    rw [← toDigits_decimal i.fits.isDigit]
    refine ⟨fun d hd => Nat.isDigit_of_mem_toDigits (by decide) (by decide) hd, ?_⟩
    rw [decimal, Nat.ofDigitChars_ten_toDigits]
    exact i.fits.le

/-- The token without the zeros in front of its index. -/
def Token.trimmed : Token → Token
  | .typeArgument index => .typeArgument index.trimmed
  | t => t

/-- No zero stands in front of the index; the index zero itself is written with one. -/
def Token.Minimal : Token → Prop
  | .typeArgument index => index.digits.head? = some '0' → index.digits = ['0']
  | _ => True

/-- The token with which a step is written. -/
def Step.token : Step → Token
  | ⟨.arrayElement, _⟩ => .arrayElement
  | ⟨.innerType, _⟩ => .innerType
  | ⟨.wildcardBound, _⟩ => .wildcardBound
  | ⟨.typeArgument, i⟩ => .typeArgument (.ofByte i)

/-- The step without an argument that its kind does not use. -/
def Step.normalized : Step → Step
  | ⟨.typeArgument, i⟩ => ⟨.typeArgument, i⟩
  | ⟨kind, _⟩ => ⟨kind, 0⟩

/-- The path without arguments that the kinds of its steps do not use. -/
def normalized (p : TypePath) : TypePath := ⟨p.steps.map Step.normalized⟩

theorem Step.chars_token : ∀ s : Step, s.token.chars = s.chars
  | ⟨.arrayElement, _⟩ | ⟨.innerType, _⟩ | ⟨.wildcardBound, _⟩ | ⟨.typeArgument, _⟩ => rfl

theorem Step.step_token : ∀ s : Step, s.token.step = s.normalized
  | ⟨.arrayElement, _⟩ | ⟨.innerType, _⟩ | ⟨.wildcardBound, _⟩ => rfl
  | ⟨.typeArgument, i⟩ => by
    have hvalue : decimal (Nat.toDigits 10 i.toNat) = i.toNat := Nat.ofDigitChars_ten_toDigits
    simp [token, Token.step, Numeral.ofByte, normalized, hvalue]

theorem Step.token_normalized : ∀ s : Step, s.normalized.token = s.token
  | ⟨.arrayElement, _⟩ | ⟨.innerType, _⟩ | ⟨.wildcardBound, _⟩ | ⟨.typeArgument, _⟩ => rfl

theorem Step.normalized_eq_self_iff : ∀ s : Step,
    s.normalized = s ↔ (s.kind ≠ .typeArgument → s.argument = 0)
  | ⟨.arrayElement, _⟩ | ⟨.innerType, _⟩ | ⟨.wildcardBound, _⟩ | ⟨.typeArgument, _⟩ => by
    simp [normalized, eq_comm]

/-- A token that was read is written without the zeros in front. -/
theorem Token.token_step : ∀ t : Token, t.step.token = t.trimmed
  | .arrayElement | .innerType | .wildcardBound => rfl
  | .typeArgument i => by
    refine congrArg Token.typeArgument (Numeral.ext ?_)
    exact toDigits_decimal i.fits.isDigit

theorem Token.normalized_step : ∀ t : Token, t.step.normalized = t.step
  | .arrayElement | .innerType | .wildcardBound | .typeArgument _ => rfl

theorem Token.trimmed_eq_self_iff : ∀ t : Token, t.trimmed = t ↔ t.Minimal
  | .arrayElement | .innerType | .wildcardBound => iff_of_true rfl trivial
  | .typeArgument i => by
    rw [Minimal, ← trimZeros_eq_self_iff i.nonempty]
    refine ⟨fun h => ?_, fun h => congrArg Token.typeArgument (Numeral.ext h)⟩
    injection h with h
    exact congrArg Numeral.digits h

/-! ### There and back -/

theorem map_eq_self_iff {α : Type u} {f : α → α} {l : List α} :
    l.map f = l ↔ ∀ x ∈ l, f x = x := by
  simpa using List.map_inj_left (f := f) (g := id) (l := l)

theorem toList_text (p : TypePath) : p.text.toList = spelled (p.steps.map Step.token) := by
  rw [text, String.toList_ofList, spelled, List.flatMap_map]
  simp [Step.chars_token]

theorem ofText_text (p : TypePath) : ofText p.text = .ok p.normalized := by
  rw [ofText_of_spelled (toList_text p), List.map_map]
  simp [Function.comp_def, Step.step_token, normalized]

theorem normalized_eq_self_iff (p : TypePath) :
    p.normalized = p ↔ ∀ s ∈ p.steps, s.kind ≠ .typeArgument → s.argument = 0 := by
  obtain ⟨steps⟩ := p
  simp only [normalized, mk.injEq, map_eq_self_iff, Step.normalized_eq_self_iff]

theorem text_eq_text_iff (p q : TypePath) : p.text = q.text ↔ p.normalized = q.normalized := by
  have htokens : ∀ p : TypePath, p.text.toList = spelled (p.normalized.steps.map Step.token) := by
    intro p
    rw [toList_text, normalized, List.map_map]
    simp [Function.comp_def, Step.token_normalized]
  constructor
  · intro h
    have hread := ofText_text p
    rw [h, ofText_text q] at hread
    injection hread with hread
    exact hread.symm
  · intro h
    rw [← String.toList_inj, htokens, htokens, h]

/-- A path that was read is written in the tokens that were read, without the zeros
in front. -/
theorem toList_text_of_ofText {s : String} {p : TypePath} {ts : List Token}
    (hs : s.toList = spelled ts) (h : ofText s = .ok p) :
    p.text.toList = spelled (ts.map Token.trimmed) := by
  rw [ofText_of_spelled hs] at h
  cases h
  rw [toList_text, List.map_map]
  simp [Function.comp_def, Token.token_step]

theorem normalized_of_ofText {s : String} {p : TypePath} (h : ofText s = .ok p) :
    p.normalized = p := by
  obtain ⟨ts, -, hp⟩ := ofText_eq_ok_iff.mp h
  obtain ⟨steps⟩ := p
  subst hp
  simp [normalized, Function.comp_def, Token.normalized_step]

/-- **Writing and reading undo each other up to what the text does not carry.** A
path comes back without the arguments that its kinds do not use, so that two paths
have one text if they differ in nothing else. A text that is read comes back
without the zeros in front of its indices; after that it stays as it is. -/
theorem text_and_reading_undo :
    (∀ p : TypePath, ofText p.text = .ok p.normalized ∧
      (ofText p.text = .ok p ↔ ∀ s ∈ p.steps, s.kind ≠ .typeArgument → s.argument = 0)) ∧
    (∀ p q : TypePath, p.text = q.text ↔ p.normalized = q.normalized) ∧
    ∀ s p, ofText s = .ok p → ofText p.text = .ok p ∧
      ∃ ts : List Token, s.toList = spelled ts ∧ p.text.toList = spelled (ts.map Token.trimmed) ∧
        (p.text = s ↔ ∀ t ∈ ts, t.Minimal) := by
  refine ⟨fun p => ⟨ofText_text p, ?_⟩, text_eq_text_iff, fun s p h => ⟨?_, ?_⟩⟩
  · rw [ofText_text, Except.ok.injEq]
    exact normalized_eq_self_iff p
  · rw [ofText_text, normalized_of_ofText h]
  · obtain ⟨ts, hs, -⟩ := ofText_eq_ok_iff.mp h
    have htext := toList_text_of_ofText hs h
    refine ⟨ts, hs, htext, ?_⟩
    have hsame : p.text = s ↔ ts.map Token.trimmed = ts := by
      rw [← String.toList_inj, htext, hs]
      exact ⟨spelled_injective, congrArg spelled⟩
    rw [hsame, map_eq_self_iff]
    simp only [Token.trimmed_eq_self_iff]

/-- The path of a text with zeros in front of one index. -/
def sevenAndZero : TypePath := ⟨[⟨.typeArgument, 7⟩, ⟨.arrayElement, 0⟩, ⟨.typeArgument, 0⟩]⟩

/-- The zeros in front of seven go, and the index zero stays. -/
theorem sevenAndZero_text_and_reading_undo : ofText "007;[0;" = .ok sevenAndZero ∧
    sevenAndZero.text = "7;[0;" ∧ ofText sevenAndZero.text = .ok sevenAndZero ∧
    ∃ ts : List Token, "007;[0;".toList = spelled ts ∧
      sevenAndZero.text.toList = spelled (ts.map Token.trimmed) := by
  have hread : ofText "007;[0;" = .ok sevenAndZero := by decide
  obtain ⟨-, -, hback⟩ := text_and_reading_undo
  obtain ⟨hagain, ts, hs, htext, -⟩ := hback _ _ hread
  exact ⟨hread, by decide, hagain, ts, hs, htext⟩

end TypePath

end ClassTree

/-
# Why a text is not a type path

A text that is refused starts with an accepted text and digits of one more index
that fit, as far as the reader got. What follows says why it is refused: a
character that cannot go on, one digit too many, or nothing although the index is
not closed (`TypePath.Malformed`). The reader stops at the first such place, so
what comes after it does not matter, and no text is refused for two reasons.

Positions are counted in bytes. That of a character is its own, while that of an
index without its end is the place of the first digit.

Key definitions: `TypePath.Accepted`, `TypePath.Malformed`.
-/
import ClassTree.Proofs.PathGrammar

namespace ClassTree

namespace TypePath

/-- The text is a type path. -/
def Accepted (s : String) : Prop := ∃ p, ofText s = .ok p

/-- The text is refused for the given reason. An accepted text `u` and digits come
first: digits that fit and a character that cannot go on, digits of which the last
is one too many, or digits that fit and the end of the text. -/
def Malformed (s : String) : Error → Prop
  | .unexpected c n => ∃ u ds r : String, s = u ++ ds ++ String.singleton c ++ r ∧ Accepted u ∧
      Fits ds.toList ∧ Stuck ds.toList c ∧ n = (u ++ ds).utf8ByteSize
  | .outOfRange v => ∃ u ds r : String, s = u ++ ds ++ r ∧ Accepted u ∧
      (∀ d ∈ ds.toList, d.isDigit = true) ∧ decimal ds.toList.dropLast ≤ 255 ∧
      256 ≤ decimal ds.toList ∧ v.toNat = decimal ds.toList
  | .unterminated n => ∃ u ds : String, s = u ++ ds ∧ Accepted u ∧ ds ≠ "" ∧
      Fits ds.toList ∧ n = u.utf8ByteSize

theorem accepted_iff {s : String} : Accepted s ↔ ∃ ts : List Token, s.toList = spelled ts := by
  constructor
  · rintro ⟨p, hp⟩
    obtain ⟨ts, hs, -⟩ := ofText_eq_ok_iff.mp hp
    exact ⟨ts, hs⟩
  · rintro ⟨ts, hs⟩
    exact ⟨_, ofText_of_spelled hs⟩

theorem accepted_ofList_spelled (ts : List Token) : Accepted (String.ofList (spelled ts)) :=
  accepted_iff.mpr ⟨ts, String.toList_ofList⟩

theorem bytes_toList (s : String) : bytes s.toList = s.utf8ByteSize := by
  rw [bytes, String.ofList_toList]

/-- A run fails at its first character that is refused. -/
theorem Reader.exists_of_run_error {r : Reader} {cs : List Char} {e : Error}
    (h : r.run cs = .error e) : ∃ before c rest r', cs = before ++ c :: rest ∧
      r.run before = .ok r' ∧ r'.feed c = .error e := by
  induction cs using List.reverseRecOn with
  | nil => cases h
  | append_singleton cs c ih =>
    rw [run_append, bind_eq_error_iff] at h
    rcases h with h | ⟨r', hrun, hlast⟩
    · obtain ⟨before, d, rest, r', rfl, hrun, hd⟩ := ih h
      exact ⟨before, d, rest ++ [c], r', by simp, hrun, hd⟩
    · rw [run_singleton] at hlast
      exact ⟨cs, c, [], r', rfl, hrun, hlast⟩

/-! ### From the error to its reason -/

theorem malformed_of_run_error {s : String} {e : Error}
    (h : Reader.start.run s.toList = .error e) : Malformed s e := by
  obtain ⟨before, c, rest, r, hs, hrun, hfeed⟩ := Reader.exists_of_run_error h
  obtain ⟨ts, ds, hds, rfl, rfl⟩ := Reader.standing_of_run hrun
  rcases hds.next_cases c with ⟨t, ht⟩ | ⟨hc, hle⟩ | ⟨hc, hge⟩ | hc
  · rw [Reader.feed_standing_token ts ht] at hfeed
    cases hfeed
  · rw [Reader.feed_standing_digit ts hds hc hle] at hfeed
    cases hfeed
  · rw [Reader.feed_standing_excess ts hds hc hge] at hfeed
    cases hfeed
    refine ⟨.ofList (spelled ts), .ofList (ds ++ [c]), .ofList rest, ?_, accepted_ofList_spelled ts,
      ?_, ?_, ?_, ?_⟩
    · rw [← String.toList_inj, hs]
      simp
    · rw [String.toList_ofList]
      exact hds.isDigit_concat hc
    · simpa using hds.le
    · simpa using hge
    · rw [String.toList_ofList]
      exact (Reader.next_value hds hc).2
  · rw [Reader.feed_standing_stuck ts hc] at hfeed
    cases hfeed
    refine ⟨.ofList (spelled ts), .ofList ds, .ofList rest, ?_, accepted_ofList_spelled ts,
      by simpa using hds, by simpa using hc, ?_⟩
    · rw [← String.toList_inj, hs]
      simp
    · rw [bytes, String.ofList_append]

theorem malformed_of_finish_error {s : String} {r : Reader} {e : Error}
    (hrun : Reader.start.run s.toList = .ok r) (h : r.finish = .error e) : Malformed s e := by
  obtain ⟨ts, ds, hds, hs, rfl⟩ := Reader.standing_of_run hrun
  have hne : ds ≠ [] := by
    rintro rfl
    cases h
  rw [Reader.finish_standing hne] at h
  cases h
  refine ⟨.ofList (spelled ts), .ofList ds, ?_, accepted_ofList_spelled ts, ?_, by simpa using hds,
    rfl⟩
  · rw [← String.toList_inj, hs]
    simp
  · rw [ne_eq, ← String.toList_inj, String.toList_ofList]
    simpa using hne

/-! ### From the reason to the error -/

/-- Digits that exceed a byte by their last one fit without it. -/
theorem exists_concat_of_excess {ds : List Char} (hdigits : ∀ d ∈ ds, d.isDigit = true)
    (hle : decimal ds.dropLast ≤ 255) (hge : 256 ≤ decimal ds) :
    ∃ ds' d, ds = ds' ++ [d] ∧ Fits ds' ∧ d.isDigit = true := by
  cases ds using List.reverseRecOn with
  | nil => simp at hge
  | append_singleton ds' d =>
    rw [List.dropLast_concat] at hle
    exact ⟨ds', d, rfl, ⟨fun d' hd' => hdigits d' (List.mem_append_left _ hd'), hle⟩,
      hdigits d (by simp)⟩

theorem ofText_of_stuck {u ds r : String} {c : Char} (hu : Accepted u) (hds : Fits ds.toList)
    (hc : Stuck ds.toList c) : ofText (u ++ ds ++ String.singleton c ++ r) =
      .error (.unexpected c (u ++ ds).utf8ByteSize) := by
  obtain ⟨ts, hts⟩ := accepted_iff.mp hu
  refine ofText_of_run_error ?_
  have hs : (u ++ ds ++ String.singleton c ++ r).toList =
      (spelled ts ++ ds.toList) ++ c :: r.toList := by simp [hts]
  rw [hs, Reader.run_append_ok (Reader.run_spelled_append ts hds),
    Reader.run_cons_error (Reader.feed_standing_stuck ts hc), ← hts, ← String.toList_append,
    bytes_toList]

theorem ofText_of_excess {u ds r : String} {v : UInt32} (hu : Accepted u)
    (hdigits : ∀ d ∈ ds.toList, d.isDigit = true) (hle : decimal ds.toList.dropLast ≤ 255)
    (hge : 256 ≤ decimal ds.toList) (hv : v.toNat = decimal ds.toList) :
    ofText (u ++ ds ++ r) = .error (.outOfRange v) := by
  obtain ⟨ts, hts⟩ := accepted_iff.mp hu
  obtain ⟨ds', d, hds, hfits, hd⟩ := exists_concat_of_excess hdigits hle hge
  refine ofText_of_run_error ?_
  have hs : (u ++ ds ++ r).toList = (spelled ts ++ ds') ++ d :: r.toList := by simp [hts, hds]
  rw [hds] at hge hv
  rw [hs, Reader.run_append_ok (Reader.run_spelled_append ts hfits),
    Reader.run_cons_error (Reader.feed_standing_excess ts hfits hd hge), ← hv, UInt32.ofNat_toNat]

theorem ofText_of_open {u ds : String} (hu : Accepted u) (hne : ds ≠ "") (hds : Fits ds.toList) :
    ofText (u ++ ds) = .error (.unterminated u.utf8ByteSize) := by
  obtain ⟨ts, hts⟩ := accepted_iff.mp hu
  have hlist : ds.toList ≠ [] := by simpa using hne
  have hrun : Reader.start.run (u ++ ds).toList = .ok (.standing ts ds.toList) := by
    rw [String.toList_append, hts]
    exact Reader.run_spelled_append ts hds
  rw [ofText_of_run hrun, Reader.finish_standing hlist, ← hts, bytes_toList]

/-! ### Exactly one reason -/

theorem ofText_eq_error_iff {s : String} {e : Error} : ofText s = .error e ↔ Malformed s e := by
  constructor
  · intro h
    rw [ofText, bind_eq_error_iff] at h
    rcases h with hrun | ⟨r, hrun, hfinish⟩
    · exact malformed_of_run_error hrun
    · exact malformed_of_finish_error hrun hfinish
  · intro h
    cases e with
    | unexpected c n =>
      obtain ⟨u, ds, r, rfl, hu, hds, hc, rfl⟩ := h
      exact ofText_of_stuck hu hds hc
    | outOfRange v =>
      obtain ⟨u, ds, r, rfl, hu, hdigits, hle, hge, hv⟩ := h
      exact ofText_of_excess hu hdigits hle hge hv
    | unterminated n =>
      obtain ⟨u, ds, rfl, hu, hne, hds, rfl⟩ := h
      exact ofText_of_open hu hne hds

/-- An index is refused at its first excess, so it is not far out of range. -/
theorem Malformed.index_range {s : String} {v : UInt32} (h : Malformed s (.outOfRange v)) :
    256 ≤ v.toNat ∧ v.toNat ≤ 2559 := by
  obtain ⟨u, ds, r, -, -, hdigits, hle, hge, hv⟩ := h
  obtain ⟨ds', d, hds, hfits, hd⟩ := exists_concat_of_excess hdigits hle hge
  have hle' := hfits.le
  have hdigit := digit_le hd
  have hvalue := decimal_concat ds' d
  rw [← hds] at hvalue
  omega

/-- **A text is refused for exactly one reason, and the error names it.** -/
theorem refused_for_one_reason (s : String) :
    (∀ e, ofText s = .error e ↔ Malformed s e) ∧
    (¬ Accepted s ↔ ∃! e, Malformed s e) ∧
    ∀ v, Malformed s (.outOfRange v) → 256 ≤ v.toNat ∧ v.toNat ≤ 2559 := by
  refine ⟨fun e => ofText_eq_error_iff, ⟨fun hs => ?_, ?_⟩, fun v => Malformed.index_range⟩
  · cases h : ofText s with
    | ok p => exact absurd ⟨p, h⟩ hs
    | error e =>
      refine ⟨e, ofText_eq_error_iff.mp h, fun e' he' => ?_⟩
      have hsame : Except.error e = .error e' := h.symm.trans (ofText_eq_error_iff.mpr he')
      cases hsame
      rfl
  · rintro ⟨e, he, -⟩ ⟨p, hp⟩
    rw [ofText_eq_error_iff.mpr he] at hp
    cases hp

/-- The second index is refused at its last digit, and the letter after it is not
seen. -/
theorem excess_refused_for_one_reason : ¬ Accepted "[0;300x" ∧
    Malformed "[0;300x" (.outOfRange 300) ∧ (∃! e, Malformed "[0;300x" e) ∧
    256 ≤ (300 : UInt32).toNat ∧ (300 : UInt32).toNat ≤ 2559 := by
  have herror : ofText "[0;300x" = .error (.outOfRange 300) := by decide
  have hrefused : ¬ Accepted "[0;300x" := by
    rintro ⟨p, hp⟩
    rw [herror] at hp
    cases hp
  obtain ⟨hiff, hone, hrange⟩ := refused_for_one_reason "[0;300x"
  have hreason := (hiff _).mp herror
  exact ⟨hrefused, hreason, hone.mp hrefused, hrange 300 hreason⟩

end TypePath

end ClassTree

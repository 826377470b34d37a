/-
# A word and its flags

An access word is taken apart by one walk over the named flags. Each of them is a
single bit, so a flag of which something is left is left in full, and taking it off
what is left takes nothing else. This gives the two laws of the walk, each by
induction on the flags.

- What it lists, with the bits that it leaves over, is a partition of the word
  (`Access.Splits`, `Access.splits_walk`).
- It lists, in the order of the flags, those that come first for their bit and whose
  bit is set (`Access.walk_fst`).

Of the named flags the first for each bit are eighteen, in the order of their bits,
which gives the names of a word in closed form (`Access.map_some_names`).

The text of a word can be read (`Access.ofText`): its words are names and
hexadecimal numbers, neither of which holds a blank or a bar, and the union of
what they stand for is the word, because the pieces are a partition. So no two words
have the same text.

Key definitions: `Access.has`, `Access.bit`, `Access.Splits`, `Access.firsts`,
`Access.firstNamed?`, `Access.ofText`, `Access.labels`.
-/
import ClassTree.Access
import ClassTree.Hex
import Mathlib.Data.List.Basic

namespace ClassTree

namespace Access

/-! ### Bits -/

/-- The bit at a position. -/
def has (a : Access) (i : Nat) : Bool := a.bits.toBitVec.getLsbD i

/-- The word with one bit set. -/
def bit (i : Nat) : Access := ⟨⟨BitVec.twoPow 32 i⟩⟩

theorem lt_of_has {a : Access} {i : Nat} (h : a.has i = true) : i < 32 :=
  BitVec.lt_of_getLsbD h

theorem ext_has {a b : Access} (h : ∀ i, a.has i = b.has i) : a = b := by
  obtain ⟨⟨a⟩⟩ := a
  obtain ⟨⟨b⟩⟩ := b
  have hbits : a = b := BitVec.eq_of_getLsbD_eq fun i _ => h i
  rw [hbits]

@[simp] theorem has_empty (i : Nat) : empty.has i = false := by
  simp [has, empty]

@[simp] theorem has_union (a b : Access) (i : Nat) : (a.union b).has i = (a.has i || b.has i) := by
  simp [has, union]

@[simp] theorem has_inter (a b : Access) (i : Nat) : (a.inter b).has i = (a.has i && b.has i) := by
  simp [has, inter]

@[simp] theorem has_diff (a b : Access) (i : Nat) : (a.diff b).has i = (a.has i && !b.has i) := by
  cases h : a.has i with
  | false => simp_all [has, diff]
  | true =>
    have hlt : i < 32 := lt_of_has h
    simp_all [has, diff]

theorem has_bit {i : Nat} (hi : i < 32) (j : Nat) : (bit i).has j = decide (i = j) := by
  simp [has, bit, hi]

theorem bit_ne_empty {i : Nat} (hi : i < 32) : bit i ≠ empty := by
  intro h
  simpa [has_bit hi] using congrArg (has · i) h

theorem bit_inj {i j : Nat} (hi : i < 32) : bit i = bit j ↔ i = j := by
  refine ⟨fun h => ?_, fun h => h ▸ rfl⟩
  have hat : (bit i).has i = (bit j).has i := congrArg (has · i) h
  simpa [has, bit, hi, eq_comm] using hat

theorem inter_bit (a : Access) {i : Nat} (hi : i < 32) :
    a.inter (bit i) = if a.has i then bit i else empty := by
  refine ext_has fun j => ?_
  by_cases hij : i = j
  · cases h : a.has i <;> simp [has_bit hi, ← hij, h]
  · cases h : a.has i <;> simp [has_bit hi, hij]

/-- To have all of one bit is to have it set. -/
theorem contains_bit (a : Access) {i : Nat} (hi : i < 32) : a.contains (bit i) = a.has i := by
  have hinter : a.contains (bit i) = true ↔ a.inter (bit i) = bit i := by
    simp [contains, inter, bit]
  rw [Bool.eq_iff_iff, hinter, inter_bit a hi]
  cases a.has i <;> simp [(bit_ne_empty hi).symm]

/-- To have some of one bit is to have it set. -/
theorem intersects_bit (a : Access) {i : Nat} (hi : i < 32) : a.intersects (bit i) = a.has i := by
  have hinter : a.intersects (bit i) = true ↔ a.inter (bit i) ≠ empty := by
    simp [intersects, inter, empty]
  rw [Bool.eq_iff_iff, hinter, inter_bit a hi]
  cases a.has i <;> simp [bit_ne_empty hi]

/-! ### Partitions -/

/-- The words `ps` are a partition of the bits of `a`. -/
structure Splits (ps : List Access) (a : Access) : Prop where
  nonzero : empty ∉ ps
  disjoint : ps.Pairwise fun p q => p.inter q = empty
  union_eq : ps.foldr union empty = a

theorem has_foldr_union (ps : List Access) (i : Nat) :
    (ps.foldr union empty).has i = ps.any (·.has i) := by
  induction ps with
  | nil => simp
  | cons p ps ih => simp [ih]

/-- A word that is not taken apart further. -/
theorem splits_whole (a : Access) : Splits (if a.isEmpty then [] else [a]) a := by
  have hempty : a.isEmpty = true ↔ a = empty := by
    cases a
    simp [isEmpty, empty]
  by_cases h : a = empty
  · rw [if_pos (hempty.mpr h), h]
    exact ⟨List.not_mem_nil, List.Pairwise.nil, rfl⟩
  · rw [if_neg (mt hempty.mp h)]
    refine ⟨fun hmem => h (List.mem_singleton.mp hmem).symm, List.pairwise_singleton _ a, ?_⟩
    exact ext_has fun i => by simp

/-- A set bit, and a partition of the others. -/
theorem Splits.cons_bit {ps : List Access} {a : Access} {i : Nat} (hi : a.has i = true)
    (h : Splits ps (a.diff (bit i))) : Splits (bit i :: ps) a := by
  have hlt : i < 32 := lt_of_has hi
  refine ⟨?_, List.pairwise_cons.mpr ⟨fun q hq => ?_, h.disjoint⟩, ?_⟩
  · rw [List.mem_cons]
    rintro (hbit | hmem)
    · exact bit_ne_empty hlt hbit.symm
    · exact h.nonzero hmem
  · refine ext_has fun j => ?_
    have hothers : q.has j = true → (a.diff (bit i)).has j = true := by
      intro hqj
      rw [← h.union_eq, has_foldr_union]
      exact List.any_eq_true.mpr ⟨q, hq, hqj⟩
    cases hqj : q.has j with
    | false => simp [hqj]
    | true => simp_all
  · rw [List.foldr_cons, h.union_eq]
    refine ext_has fun j => ?_
    by_cases hij : i = j
    · simp [has_bit hlt, ← hij, hi]
    · simp [has_bit hlt, hij]

/-! ### The walk -/

/-- All bits of `p` are bits of `a`. -/
def Within (p a : Access) : Prop := ∀ i, p.has i = true → a.has i = true

theorem Within.refl (a : Access) : Within a a := fun _ h => h

/-- What is left of a part is a part. -/
theorem Within.diff {p a : Access} (h : Within p a) (q : Access) : Within (p.diff q) a := by
  intro i hi
  rw [has_diff, Bool.and_eq_true] at hi
  exact h i hi.1

/-- Every flag is a single bit. -/
def OneBit (flags : List (String × UInt32)) : Prop :=
  ∀ e ∈ flags, ∃ i < 32, (⟨e.2⟩ : Access) = bit i

/-- The flags that come first for their bits. -/
def firsts : List (String × UInt32) → List (String × UInt32)
  | [] => []
  | e :: flags => e :: (firsts flags).filter (·.2 != e.2)

/-- What the walk does at one flag, when all that is left is part of the word. -/
theorem walk_cons {a left : Access} {name : String} {bits : UInt32} {i : Nat} (hi : i < 32)
    (hbits : (⟨bits⟩ : Access) = bit i) (hleft : Within left a)
    (flags : List (String × UInt32)) :
    walk a ((name, bits) :: flags) left =
      if left.has i then
        ((name, bit i) :: (walk a flags (left.diff (bit i))).1, (walk a flags (left.diff (bit i))).2)
      else walk a flags left := by
  have hcond : (a.contains (bit i) && left.intersects (bit i)) = left.has i := by
    rw [contains_bit a hi, intersects_bit left hi]
    cases h : left.has i with
    | false => simp
    | true => simp [hleft i h]
  simp only [walk, hbits, hcond]

/-- **Nothing is lost on the walk.** What it lists and what it leaves over are a
partition of what it started with. -/
theorem splits_walk {a : Access} {flags : List (String × UInt32)} (hflags : OneBit flags) :
    ∀ left : Access, Within left a →
      Splits ((walk a flags left).1.map (·.2) ++
        if (walk a flags left).2.isEmpty then [] else [(walk a flags left).2]) left := by
  induction flags with
  | nil =>
    intro left _
    exact splits_whole left
  | cons e flags ih =>
    intro left hleft
    obtain ⟨⟨i, hi, hbit⟩, hflags⟩ := List.forall_mem_cons.mp hflags
    rw [walk_cons hi hbit hleft]
    by_cases hset : left.has i = true
    · rw [if_pos hset]
      exact (ih hflags (left.diff (bit i)) (hleft.diff (bit i))).cons_bit hset
    · rw [if_neg hset]
      exact ih hflags left hleft

theorem firsts_sublist : ∀ flags : List (String × UInt32), (firsts flags).Sublist flags
  | [] => List.Sublist.slnil
  | e :: flags => (List.filter_sublist.trans (firsts_sublist flags)).cons_cons e

/-- **The walk lists the flags that come first**, those of them that show in what it
started with. -/
theorem walk_fst {a : Access} {flags : List (String × UInt32)} (hflags : OneBit flags) :
    ∀ left : Access, Within left a →
      (walk a flags left).1 =
        ((firsts flags).filter fun e => left.intersects ⟨e.2⟩).map fun e => (e.1, ⟨e.2⟩) := by
  induction flags with
  | nil =>
    intro left _
    rfl
  | cons e flags ih =>
    intro left hleft
    obtain ⟨⟨i, hi, hbit⟩, hflags⟩ := List.forall_mem_cons.mp hflags
    -- a later flag shows in what is left iff it shows now and is for another bit
    have hlater : ∀ d ∈ firsts flags,
        (left.diff (bit i)).intersects ⟨d.2⟩ = (left.intersects ⟨d.2⟩ && d.2 != e.2) := by
      intro d hd
      obtain ⟨k, hk, hdk⟩ := hflags d ((firsts_sublist flags).mem hd)
      have hother : (d.2 != e.2) = !decide (i = k) := by
        have hbits : d.2 = e.2 ↔ i = k := by
          rw [← bit_inj hi, ← hbit, ← hdk, eq_comm, Access.mk.injEq]
        rw [bne, Bool.beq_eq_decide_eq, decide_eq_decide.mpr hbits]
      rw [hdk, intersects_bit _ hk, intersects_bit _ hk, has_diff, has_bit hi, hother]
    rw [walk_cons hi hbit hleft, firsts, List.filter_cons, hbit, intersects_bit left hi,
      List.filter_filter, ← List.filter_congr hlater]
    by_cases hset : left.has i = true
    · rw [if_pos hset, if_pos hset, ih hflags _ (hleft.diff (bit i)), List.map_cons, hbit]
    · have hsame : left.diff (bit i) = left := by
        refine ext_has fun j => ?_
        by_cases hij : i = j
        · simp [← hij, hset]
        · simp [has_bit hi, hij]
      rw [if_neg hset, if_neg hset, ih hflags left hleft, hsame]

/-! ### Pieces and names -/

/-- The named flags as words, in the order in which a word lists them. -/
def declared : List (String × Access) := named.map fun e => (e.1, ⟨e.2⟩)

/-- The first flag declared for a bit. -/
def firstNamed? (i : Nat) : Option (String × Access) := declared.find? (·.2.has i)

theorem oneBit_named : OneBit named := by
  unfold OneBit
  decide

/-- The pieces of a word are a partition of its bits. -/
theorem splits_pieces (a : Access) : Splits a.pieces a :=
  splits_walk oneBit_named a (Within.refl a)

/-- The first flags of all are the first ones for the eighteen lowest bits, in the
order of these. -/
theorem map_firsts_named :
    (firsts named).map (fun e => some (e.1, ⟨e.2⟩)) = (List.range 18).map firstNamed? := by
  decide

theorem map_snd_firstNamed? : ∀ i < 18, (firstNamed? i).map (·.2) = some (bit i) := by
  decide

theorem names_eq_filter (a : Access) :
    a.names = ((firsts named).filter fun e => a.intersects ⟨e.2⟩).map fun e => (e.1, ⟨e.2⟩) :=
  walk_fst oneBit_named a (Within.refl a)

theorem names_sublist (a : Access) : a.names.Sublist declared := by
  rw [names_eq_filter]
  exact (List.filter_sublist.trans (firsts_sublist named)).map _

/-- **The names of a word**: for each set bit among the eighteen lowest, the first
one declared. -/
theorem map_some_names (a : Access) :
    a.names.map some = ((List.range 18).filter a.has).map firstNamed? := by
  have hset : ∀ i ∈ List.range 18, ((firstNamed? i).any fun e => a.intersects e.2) = a.has i := by
    intro i hi
    have hlt : i < 18 := List.mem_range.mp hi
    obtain ⟨e, he, hbit⟩ := Option.map_eq_some_iff.mp (map_snd_firstNamed? i hlt)
    rw [he, Option.any_some, hbit, intersects_bit a (by omega)]
  calc a.names.map some
      = ((firsts named).map fun e => some (e.1, (⟨e.2⟩ : Access))).filter
          (Option.any fun e => a.intersects e.2) := by
        rw [names_eq_filter, List.filter_map, List.map_map]
        rfl
    _ = ((List.range 18).filter fun i => (firstNamed? i).any fun e => a.intersects e.2).map
          firstNamed? := by
        rw [map_firsts_named, List.filter_map]
        rfl
    _ = ((List.range 18).filter a.has).map firstNamed? := by
        rw [List.filter_congr hset]

-- two bits with several names each, and two without a name
example : (⟨0x80040060⟩ : Access).names = [("SUPER", ⟨0x20⟩), ("VOLATILE", ⟨0x40⟩)] := by
  decide

/-! ### Texts -/

/-- What a word of a text stands for: a flag by its name, or bits by their number. -/
def ofWord? (w : List Char) : Option Access :=
  (ofName? (String.ofList w)).or ((Hex.number? (w.drop 2)).map fun n => ⟨UInt32.ofNat n⟩)

/-- The union of what the words of a text stand for. The words stand between the
first twelve characters and the last one, with a bar between two of them. -/
def ofText (t : String) : Access :=
  let words := ((t.toList.drop 12).dropLast.filter (· != ' ')).splitOn '|'
  (words.filterMap ofWord?).foldr union empty

/-- The word `w` of a text stands for `p`. -/
structure Label (w : String) (p : Access) : Prop where
  stands : ofWord? w.toList = some p
  no_blank : ' ' ∉ w.toList
  no_bar : '|' ∉ w.toList

theorem ofName?_named : ∀ e ∈ named, ofName? e.1 = some ⟨e.2⟩ := by
  decide

theorem plain_named : ∀ e ∈ named,
    ' ' ∉ e.1.toList ∧ '|' ∉ e.1.toList ∧ e.1.toList.head? ≠ some '0' := by
  decide

theorem label_of_mem_declared {e : String × Access} (he : e ∈ declared) : Label e.1 e.2 := by
  obtain ⟨d, hd, rfl⟩ := List.mem_map.mp he
  obtain ⟨hblank, hbar, -⟩ := plain_named d hd
  exact ⟨by simp [ofWord?, ofName?_named d hd], hblank, hbar⟩

theorem label_hex (a : Access) : Label a.hex a := by
  have hchars : a.hex.toList = '0' :: 'x' :: Nat.toDigits 16 a.bits.toNat := by
    simp [hex]
  -- no name starts with a zero
  have hname : ofName? a.hex = none := by
    rw [ofName?, Option.map_eq_none_iff, List.lookup_eq_none_iff]
    intro e he
    rw [bne_iff_ne]
    intro heq
    exact (plain_named e he).2.2 (by rw [← heq, hchars, List.head?_cons])
  have hdigits : ∀ c, (Hex.digit? c).isSome = false → c ∉ Nat.toDigits 16 a.bits.toNat := by
    intro c hc hmem
    simp [Hex.isSome_digit?_of_mem_toDigits hmem] at hc
  refine ⟨?_, ?_, ?_⟩
  · rw [ofWord?, String.ofList_toList, hname, hchars]
    simp [Hex.number?_toDigits]
  · simp [hchars, hdigits ' ' (by decide)]
  · simp [hchars, hdigits '|' (by decide)]

/-- The words of a text, each with what it stands for. -/
def labels (a : Access) : List (String × Access) :=
  if a.pieces.isEmpty then [(a.hex, a)]
  else a.names ++ if a.unnamed.isEmpty then [] else [(a.unnamed.hex, a.unnamed)]

theorem text_eq (a : Access) :
    a.text = "AccessFlags(" ++ " | ".intercalate (a.labels.map (·.1)) ++ ")" := by
  cases hn : a.names <;> cases hu : a.unnamed.isEmpty <;> simp [text, labels, pieces, hn, hu]

theorem labels_ne_nil (a : Access) : a.labels ≠ [] := by
  cases hn : a.names <;> cases hu : a.unnamed.isEmpty <;> simp [labels, pieces, hn, hu]

theorem label_of_mem_labels {a : Access} {e : String × Access} (he : e ∈ a.labels) :
    Label e.1 e.2 := by
  rw [labels] at he
  split at he
  · obtain rfl := List.mem_singleton.mp he
    exact label_hex a
  · rcases List.mem_append.mp he with he | he
    · exact label_of_mem_declared ((names_sublist a).mem he)
    · split at he
      · simp at he
      · obtain rfl := List.mem_singleton.mp he
        exact label_hex a.unnamed

theorem foldr_union_labels (a : Access) : (a.labels.map (·.2)).foldr union empty = a := by
  rw [labels]
  split
  · exact ext_has fun i => by simp
  · have hpieces : (a.names ++ if a.unnamed.isEmpty then [] else [(a.unnamed.hex, a.unnamed)]).map
        (·.2) = a.pieces := by
      rw [pieces, List.map_append]
      split <;> rfl
    rw [hpieces]
    exact (splits_pieces a).union_eq

/-- A bar with a blank on either side is a bar when blanks are left out. -/
theorem filter_intercalate : ∀ {ws : List (List Char)}, (∀ w ∈ ws, ' ' ∉ w) →
    ([' ', '|', ' '].intercalate ws).filter (· != ' ') = ['|'].intercalate ws
  | [], _ => rfl
  | [w], h => by
    rw [List.intercalate_singleton, List.intercalate_singleton,
      List.filter_bne_eq_self_of_not_mem (h w List.mem_cons_self)]
  | w :: v :: ws, h => by
    obtain ⟨hw, hws⟩ := List.forall_mem_cons.mp h
    rw [List.intercalate_cons_cons, List.intercalate_cons_cons, List.filter_append,
      List.filter_append, List.filter_bne_eq_self_of_not_mem hw, filter_intercalate hws]
    rfl

/-- **A text can be read.** -/
theorem ofText_text (a : Access) : ofText a.text = a := by
  have hchars : a.text.toList = "AccessFlags(".toList ++
      ([' ', '|', ' '].intercalate (a.labels.map (·.1.toList)) ++ [')']) := by
    simp [text_eq, String.toList_intercalate, Function.comp_def]
  have hwords : (a.labels.map (·.1.toList)).filterMap ofWord? = a.labels.map (·.2) := by
    rw [List.filterMap_map, List.filterMap_eq_map_iff_forall_eq_some]
    exact fun e he => (label_of_mem_labels he).stands
  have hne : a.labels.map (·.1.toList) ≠ [] := by
    rw [Ne, List.map_eq_nil_iff]
    exact labels_ne_nil a
  have hblank : ∀ w ∈ a.labels.map (·.1.toList), ' ' ∉ w := by
    intro w hw
    obtain ⟨e, he, rfl⟩ := List.mem_map.mp hw
    exact (label_of_mem_labels he).no_blank
  have hbar : ∀ w ∈ a.labels.map (·.1.toList), '|' ∉ w := by
    intro w hw
    obtain ⟨e, he, rfl⟩ := List.mem_map.mp hw
    exact (label_of_mem_labels he).no_bar
  have hlength : "AccessFlags(".toList.length = 12 := by decide
  rw [ofText, hchars, ← hlength, List.drop_left, List.dropLast_concat, filter_intercalate hblank,
    List.splitOn_intercalate '|' hbar hne, hwords, foldr_union_labels]

/-- **A word is taken apart without loss.** Its pieces are a partition of its bits. It
lists one name for each set bit below `0x40000`, the first one declared for that bit,
and its names stand in the order of the declarations. Words with the same text are
equal. -/
theorem taken_apart_without_loss (a : Access) :
    Splits a.pieces a ∧
    (a.names.map some = ((List.range 18).filter a.has).map firstNamed? ∧
      a.names.Sublist declared) ∧
    ∀ b : Access, a.text = b.text ↔ a = b := by
  have hread : ∀ b : Access, a.text = b.text → a = b := by
    intro b h
    rw [← ofText_text a, h, ofText_text]
  exact ⟨splits_pieces a, ⟨map_some_names a, names_sublist a⟩, fun b => ⟨hread b, congrArg text⟩⟩

end Access

end ClassTree

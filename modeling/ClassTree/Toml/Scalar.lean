/-
# Numbers and moments of a TOML document

A value that is neither a string nor bracketed is a word: a boolean, an
integer, a floating-point number, or a date or time. Words are recognised and
kept as text; nobody computes with them here, so the size of a number is not
limited, and a radix may stand without digits. Dates and times must exist in
the calendar and on the clock.

A word is told by its front. What begins with digits and an underscore is an
integer, and of the rest of it only the neighbours of underscores are tested;
whether the other characters are digits is for the reader of the number to
say.

Key definitions: `Toml.isInteger`, `Toml.isFloat`, `Toml.isMoment`,
`Toml.word`, `Toml.scalar?`.
-/
import ClassTree.Toml.Text
import ClassTree.Toml.Value

namespace ClassTree

namespace Toml

/-! ### Numbers -/

/-- A digit of some radix. -/
def isAnyDigit (c : Char) : Bool := (Hex.digit? c).isSome

/-- Every underscore has a digit before it and behind it. -/
def isSpaced (digit : Char → Bool) : List Char → Bool
  | [] => true
  | '_' :: _ => false
  | c :: '_' :: cs => digit c && cs.head?.any digit && isSpaced digit cs
  | _ :: cs => isSpaced digit cs

/-- Digits and underscores. -/
def isGrouped (digit : Char → Bool) (cs : List Char) : Bool :=
  cs.all fun c => digit c || c == '_'

/-- Digits and underscores with at least one digit. -/
def isDecimal (cs : List Char) : Bool := isGrouped Char.isDigit cs && cs.any Char.isDigit

/-- Drops a sign. -/
def unsigned : List Char → List Char
  | '+' :: cs => cs
  | '-' :: cs => cs
  | cs => cs

/-- The mark of an exponent. -/
def isExponentMark (c : Char) : Bool := c == 'e' || c == 'E'

/-- What makes a number with an underscore more than an integer. -/
def isBeyondInteger (c : Char) : Bool := c == '.' || c == ' ' || isExponentMark c

/-- An integer in decimal, after its sign: digits without a superfluous zero,
or digits with underscores. -/
def isWhole (cs : List Char) : Bool :=
  cs == ['0'] ||
    cs.head? != some '0' &&
      match cs.span Char.isDigit with
      | (digits, []) => !digits.isEmpty
      | (_, '_' :: rest) => !rest.any isBeyondInteger && isSpaced isAnyDigit cs
      | _ => false

/-- An integer after the mark of its radix. -/
def isRadixed (digit : Char → Bool) (cs : List Char) : Bool :=
  isGrouped digit cs && isSpaced digit cs

/-- An integer: decimal with an optional sign, or with a radix. -/
def isInteger : List Char → Bool
  | '0' :: 'x' :: cs => isRadixed isAnyDigit cs
  | '0' :: 'o' :: cs => isRadixed (fun c => '0' ≤ c && c ≤ '7') cs
  | '0' :: 'b' :: cs => isRadixed (fun c => c == '0' || c == '1') cs
  | cs => isWhole (unsigned cs)

/-- An exponent with its mark, or nothing. -/
def isExponent : List Char → Bool
  | [] => true
  | c :: cs => isExponentMark c && isDecimal (unsigned cs)

/-- The digits before the point: a zero in front stands alone. -/
def isMantissa (cs : List Char) : Bool :=
  isDecimal cs && (cs.head? != some '0' || cs.countP Char.isDigit == 1)

/-- A floating-point number, after its sign: digits with a fraction, an
exponent or both, or one of the named values. -/
def isReal (cs : List Char) : Bool :=
  cs == ['i', 'n', 'f'] || cs == ['n', 'a', 'n'] ||
    isSpaced Char.isDigit cs &&
      match cs.span fun c => c != '.' && !isExponentMark c with
      | (_, []) => false
      | (whole, '.' :: rest) =>
        match rest.span fun c => !isExponentMark c with
        | (fraction, rest) => isMantissa whole && isDecimal fraction && isExponent rest
      | (whole, rest) => isMantissa whole && isExponent rest

/-- A floating-point number with an optional sign. -/
def isFloat (cs : List Char) : Bool := isReal (unsigned cs)

/-! ### Dates and times -/

/-- Reads a number of a fixed count of digits. -/
def digits? (width : Nat) (cs : List Char) : Option (Nat × List Char) :=
  if (cs.take width).length = width && (cs.take width).all Char.isDigit then
    some ((cs.take width).foldl (fun n c => 10 * n + (c.toNat - 48)) 0, cs.drop width)
  else none

/-- Takes one character. -/
def expect? (c : Char) : List Char → Option (List Char)
  | d :: cs => if d = c then some cs else none
  | [] => none

/-- The number of days of a month. -/
def daysOf (year month : Nat) : Nat :=
  if month = 2 then if year % 4 = 0 && (year % 100 != 0 || year % 400 = 0) then 29 else 28
  else if month = 4 || month = 6 || month = 9 || month = 11 then 30
  else 31

/-- The rest after a date. -/
def date? (cs : List Char) : Option (List Char) := do
  let (year, cs) ← digits? 4 cs
  let cs ← expect? '-' cs
  let (month, cs) ← digits? 2 cs
  let cs ← expect? '-' cs
  let (day, cs) ← digits? 2 cs
  guard (1 ≤ month ∧ month ≤ 12 ∧ 1 ≤ day ∧ day ≤ daysOf year month)
  return cs

/-- The rest after a fraction of a second, if there is one. -/
def fraction? : List Char → Option (List Char)
  | '.' :: cs =>
    match cs.span Char.isDigit with
    | ([], _) => none
    | (_, rest) => some rest
  | cs => some cs

/-- The rest after a time of day. A leap second is a time. -/
def time? (cs : List Char) : Option (List Char) := do
  let (hour, cs) ← digits? 2 cs
  let cs ← expect? ':' cs
  let (minute, cs) ← digits? 2 cs
  let cs ← expect? ':' cs
  let (second, cs) ← digits? 2 cs
  guard (hour ≤ 23 ∧ minute ≤ 59 ∧ second ≤ 60)
  fraction? cs

/-- An offset from universal time, or nothing. -/
def isOffset : List Char → Bool
  | [] => true
  | ['Z'] => true
  | ['z'] => true
  | sign :: cs =>
    (sign == '+' || sign == '-') &&
      (do
        let (hour, cs) ← digits? 2 cs
        let cs ← expect? ':' cs
        let (minute, cs) ← digits? 2 cs
        guard (hour ≤ 23 ∧ minute ≤ 59 ∧ cs = [])).isSome

/-- A time with an optional offset. -/
def isTimeWithOffset (cs : List Char) : Bool :=
  match time? cs with
  | some rest => isOffset rest
  | none => false

/-- A date, a time, or both with an optional offset. -/
def isMoment (cs : List Char) : Bool :=
  match date? cs with
  | some [] => true
  | some (c :: rest) => (c == 'T' || c == 't' || c == ' ') && isTimeWithOffset rest
  | none => time? cs == some []

/-! ### Words -/

/-- The characters that end a word: brackets, separators, comments and line breaks. -/
def endsWord (c : Char) : Bool :=
  c == '=' || c == ',' || c == '[' || c == ']' || c == '\x7b' || c == '\x7d' || c == '#' ||
    c == '\r' || c == '\n'

/-- Whether a word goes on after a blank: with more of it, not with a string. -/
def wordGoesOn (cs : List Char) : Bool :=
  (skipBlanks cs).head?.any fun c => !endsWord c && c != '\x22' && c != '\x27'

/-- Splits off a word. Blanks inside a word belong to it, as between a date
and a time; blanks behind it do not. -/
def word : List Char → List Char × List Char
  | [] => ([], [])
  | c :: cs =>
    if endsWord c || isBlank c && !wordGoesOn cs then ([], c :: cs)
    else
      match word cs with
      | (w, rest) => (c :: w, rest)

/-- The value of a word. -/
def ofWord? (w : List Char) : Option Toml :=
  if w = ['t', 'r', 'u', 'e'] then some (.boolean true)
  else if w = ['f', 'a', 'l', 's', 'e'] then some (.boolean false)
  else if isInteger w || isFloat w then some (.number (String.ofList w))
  else if isMoment w then some (.moment (String.ofList w))
  else none

/-- Reads a word and gives its value. -/
def scalar? (cs : List Char) : Option (Toml × List Char) :=
  match word cs with
  | (w, rest) => (ofWord? w).map (·, rest)

end Toml

end ClassTree

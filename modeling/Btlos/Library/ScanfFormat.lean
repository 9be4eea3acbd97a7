import Btlos.Library.Scanf

/-! Formats of `fscanf` with fields of several types, put together from their conversions, and
rules for the words that such a format takes. -/
namespace Scanf

variable {α β : Type*}

def toInt (minus : Bool) (magnitude : Nat) : Option Int :=
  let value : Int := if minus then -magnitude else magnitude
  if -2147483648 ≤ value ∧ value < 2147483648 then some value else none

/-- `%d`. -/
def signed : List Char → Outcome (List Char) Int := numeral toInt

def toUnsignedLong (minus : Bool) (magnitude : Nat) : Option Nat :=
  if magnitude < 18446744073709551616 then
    some (if minus then (18446744073709551616 - magnitude) % 18446744073709551616 else magnitude)
  else none

/-- `%lu`. -/
def unsignedLong : List Char → Outcome (List Char) Nat := numeral toUnsignedLong

/-- `%s` into a buffer of this size. -/
def stringInto (size : Nat) (input : List Char) : Outcome (List Char) (List Char) :=
  match string input with
  | none => .fail []
  | some (word, rest) => if word.length < size then .ok word rest else .undefined

/-- A format, on fields that hold what they held before. -/
abbrev Format (α : Type*) := α → List Char → Outcome (List Char) α

namespace Format

/-- The end of a format. -/
def done : Format Unit := fun _ input => .ok () input

/-- White space in a format. -/
def blank (format : Format α) : Format α := fun fields input => format fields (skipSpace input)

/-- A conversion. The rest of the format is left out if it fails. -/
def conversion (convert : List Char → Outcome (List Char) α) (format : Format β) :
    Format (α × β) :=
  fun (field, fields) input =>
    match convert input with
    | .undefined => .undefined
    | .fail rest => .ok (field, fields) rest
    | .ok value rest => (format fields rest).bind fun values rest => .ok (value, values) rest

end Format

/-- The conversion takes this word, for this value. -/
def Converts (convert : List Char → Outcome (List Char) α) (word : List Char) (value : α) : Prop :=
  ∀ input rest, tokens input = word :: rest →
    ∃ after, convert input = .ok value after ∧ tokens after = rest

/-- The format takes these words for the values of all its fields. -/
def Format.Fills (format : Format α) (words : List (List Char)) (values : α) : Prop :=
  ∀ fields input rest, tokens input = words ++ rest →
    ∃ after, format fields input = .ok values after ∧ tokens after = rest

section Converts

variable {word input : List Char} {rest : List (List Char)}

/-- A word that is a numeral, with nothing after it. -/
theorem converts_numeral {convert : Bool → Nat → Option α} {value : α}
    (h : numeral convert word = .ok value []) : Converts (numeral convert) word value := by
  intro input rest hTokens
  have hAgain : skipSpace (skipSpace input) = skipSpace input :=
    List.dropWhile_idempotent isspace input
  have hSkip : numeral convert input = numeral convert (skipSpace input) := by
    rw [numeral, numeral, hAgain]
  rcases skipSpace_cases input with ⟨-, hNone⟩ | ⟨first, after, hWord, hEnds, hItem, hFirst⟩
  · rw [hNone] at hTokens
    cases hTokens
  · obtain ⟨rfl, rfl⟩ := List.cons.inj (hFirst.symm.trans hTokens)
    refine ⟨after, ?_, rfl⟩
    rw [hSkip, hItem, numeral_append convert hWord hEnds, h]
    rfl

theorem converts_stringInto {size : Nat} (hSize : word.length < size) :
    Converts (stringInto size) word word := by
  intro input rest hTokens
  obtain ⟨after, hString, hAfter⟩ := string_cons hTokens
  refine ⟨after, ?_, hAfter⟩
  rw [stringInto, hString]
  exact if_pos hSize

/-- A word that does not fit. -/
theorem stringInto_overlong {size : Nat} (hTokens : tokens input = word :: rest)
    (hSize : ¬ word.length < size) : stringInto size input = .undefined := by
  obtain ⟨after, hString, -⟩ := string_cons hTokens
  rw [stringInto, hString]
  exact if_neg hSize

end Converts

namespace Format

variable {format : Format β} {convert : List Char → Outcome (List Char) α}
  {words rest : List (List Char)} {word input : List Char} {value : α} {values : β}

theorem fills_done : Fills done [] () :=
  fun _ input _ hTokens => ⟨input, rfl, hTokens⟩

theorem Fills.blank (h : format.Fills words values) : (blank format).Fills words values := by
  intro fields input rest hTokens
  exact h fields (skipSpace input) rest (by rw [tokens_skipSpace, hTokens])

/-- After its first word a format goes on with the rest. -/
theorem conversion_converts (h : Converts convert word value) (fields : α × β)
    (hTokens : tokens input = word :: rest) :
    ∃ after, tokens after = rest ∧
      conversion convert format fields input =
        (format fields.2 after).bind fun values rest => .ok (value, values) rest := by
  obtain ⟨after, hConvert, hAfter⟩ := h input rest hTokens
  refine ⟨after, hAfter, ?_⟩
  rw [conversion, hConvert]

theorem Fills.conversion (h : format.Fills words values) (hFirst : Converts convert word value) :
    (conversion convert format).Fills (word :: words) (value, values) := by
  intro fields input rest hTokens
  obtain ⟨left, hLeft, hCall⟩ := conversion_converts hFirst fields hTokens
  obtain ⟨after, hRest, hAfter⟩ := h fields.2 left rest hLeft
  refine ⟨after, ?_, hAfter⟩
  rw [hCall, hRest, Outcome.bind_ok]

theorem conversion_undefined (h : convert input = .undefined) (fields : α × β) :
    conversion convert format fields input = .undefined := by
  rw [conversion, h]

end Format

/-! Numerals with a sign -/

def decimalInt : Int → List Char
  | .ofNat value => decimal value
  | .negSucc value => '-' :: decimal (value + 1)

theorem isWord_decimalInt (value : Int) : IsWord (decimalInt value) := by
  cases value with
  | ofNat value => exact isWord_decimal value
  | negSucc value => exact isWord_minus (value + 1)

theorem signed_decimalInt {value : Int} (hLow : -2147483648 ≤ value) (hHigh : value < 2147483648) :
    signed (decimalInt value) = .ok value [] := by
  cases value with
  | ofNat value =>
      rw [Int.ofNat_eq_natCast] at hLow hHigh
      have hInt : toInt false value = some (Int.ofNat value) := by
        simp only [toInt, Bool.false_eq_true, if_false]
        exact if_pos ⟨hLow, hHigh⟩
      rw [decimalInt, signed, numeral_decimal, hInt]
  | negSucc value =>
      rw [Int.negSucc_eq] at hLow hHigh
      have hInt : toInt true (value + 1) = some (Int.negSucc value) := by
        simp only [toInt, if_true]
        rw [if_pos (by omega)]
        exact congrArg some (by omega)
      rw [decimalInt, signed, numeral_minus, hInt]

theorem unsignedLong_decimal {value : Nat} (h : value < 18446744073709551616) :
    unsignedLong (decimal value) = .ok value [] := by
  have hValue : toUnsignedLong false value = some value := by
    simp [toUnsignedLong, h]
  rw [unsignedLong, numeral_decimal, hValue]

end Scanf

import Btlos.Library.Outcome
import Mathlib.Data.List.Basic
import Mathlib.Data.List.DropRight
import Mathlib.Data.List.TakeWhile

/-! `fscanf` of C on a text that is read word by word: white space, `%s`, numerals, and `%u`
for an unsigned type of 32 bits. A character is a byte. -/
namespace Scanf

/-- White space in the C locale. -/
def isspace (c : Char) : Bool := c.toNat == 32 || (decide (9 ≤ c.toNat) && decide (c.toNat ≤ 13))

def skipSpace (input : List Char) : List Char := input.dropWhile isspace

/-- `%s`: the next word, and what comes after it. There is none at the end of the input. -/
def string (input : List Char) : Option (List Char × List Char) :=
  let item := skipSpace input
  if item = [] then none
  else some (item.takeWhile fun c => !isspace c, item.dropWhile fun c => !isspace c)

/-- A sign is read even if no digit follows it. -/
def afterSign (item : List Char) : List Char :=
  if item.head? = some '-' ∨ item.head? = some '+' then item.tail else item

/-- A numeral for some type, from whether there is a minus sign and the number without it. A
number that the type does not have leaves the behaviour undefined. -/
def numeral {α : Type*} (convert : Bool → Nat → Option α) (input : List Char) :
    Outcome (List Char) α :=
  let item := skipSpace input
  let digits := (afterSign item).takeWhile Char.isDigit
  let rest := (afterSign item).dropWhile Char.isDigit
  if digits = [] then .fail rest
  else
    match convert (decide (item.head? = some '-')) (Nat.ofDigitChars 10 digits 0) with
    | none => .undefined
    | some value => .ok value rest

/-- `%u`. A minus sign negates within the unsigned type. A number that this type does not
have leaves the behaviour undefined. -/
def unsigned (input : List Char) : Outcome (List Char) Nat :=
  let item := skipSpace input
  let digits := (afterSign item).takeWhile Char.isDigit
  let rest := (afterSign item).dropWhile Char.isDigit
  let value := Nat.ofDigitChars 10 digits 0
  if digits = [] then .fail rest
  else if value < 4294967296 then
    .ok (if item.head? = some '-' then (4294967296 - value) % 4294967296 else value) rest
  else .undefined

inductive Directive where
  | space
  | unsigned
deriving DecidableEq

/-- `fscanf` with a format of these directives, into fields that hold what they held
before. It stops where a conversion fails. The number of conversions, which it returns,
is left out. -/
def fscanf : List Directive → List Nat → List Char → Outcome (List Char) (List Nat)
  | [], fields, input => .ok fields input
  | .space :: format, fields, input => fscanf format fields (skipSpace input)
  | .unsigned :: _, [], _ => .undefined
  | .unsigned :: format, field :: fields, input =>
      match unsigned input with
      | .undefined => .undefined
      | .fail rest => .ok (field :: fields) rest
      | .ok value rest =>
          (fscanf format fields rest).bind fun values rest => .ok (value :: values) rest

theorem unsigned_eq_numeral : unsigned = numeral fun minus value =>
    if value < 4294967296 then
      some (if minus then (4294967296 - value) % 4294967296 else value)
    else none := by
  funext input
  simp only [unsigned, numeral, decide_eq_true_eq]
  split_ifs <;> rfl

/-! Words -/

/-- The words of a text. -/
def tokens (input : List Char) : List (List Char) :=
  (input.splitOnP isspace).filter fun word => word ≠ []

structure IsWord (word : List Char) : Prop where
  nonempty : word ≠ []
  noSpace : ∀ c ∈ word, isspace c = false

/-- A word that stands before this text ends there. -/
def EndsWord (input : List Char) : Prop := ∀ c ∈ input.head?, isspace c = true

variable {c : Char} {word input left : List Char} {rest : List (List Char)}

@[simp] theorem tokens_nil : tokens [] = [] := by
  simp [tokens]

theorem tokens_space (h : isspace c = true) (input : List Char) :
    tokens (c :: input) = tokens input := by
  simp [tokens, List.splitOnP_cons_eq_if_modifyHead, h]

@[simp] theorem tokens_skipSpace (input : List Char) : tokens (skipSpace input) = tokens input := by
  induction input with
  | nil => rfl
  | cons c input ih =>
      rw [skipSpace, List.dropWhile_cons]
      split_ifs with h
      · rw [tokens_space h]
        exact ih
      · rfl

theorem tokens_append (hWord : IsWord word) (hEnds : EndsWord input) :
    tokens (word ++ input) = word :: tokens input := by
  cases input with
  | nil =>
      rw [List.append_nil, tokens, List.splitOnP_eq_singleton hWord.noSpace]
      simp [hWord.nonempty]
  | cons c input =>
      have hSpace : isspace c = true := hEnds c rfl
      rw [tokens_space hSpace, tokens,
        List.splitOnP_append_cons_of_forall_mem hWord.noSpace c hSpace]
      simp [hWord.nonempty, tokens]

/-- What stands where a run of characters ends does not belong to it. -/
private theorem head?_dropWhile {p : Char → Bool} (h : (input.dropWhile p).head? = some c) :
    p c = false := by
  have hHead := List.head?_dropWhile_not p input
  rwa [h] at hHead

/-- A run of characters in a word is not changed by what comes after the word. -/
private theorem span_append {p : Char → Bool} (hAfter : ∀ c ∈ input.head?, p c = false)
    (word : List Char) :
    (word ++ input).takeWhile p = word.takeWhile p ∧
      (word ++ input).dropWhile p = word.dropWhile p ++ input := by
  induction word with
  | nil =>
      cases input with
      | nil => exact ⟨rfl, rfl⟩
      | cons c input =>
          have hFirst : p c = false := hAfter c rfl
          simp [hFirst]
  | cons c word ih =>
      rw [List.cons_append, List.takeWhile_cons, List.dropWhile_cons, List.takeWhile_cons,
        List.dropWhile_cons]
      split_ifs
      · exact ⟨congrArg (c :: ·) ih.1, ih.2⟩
      · exact ⟨rfl, rfl⟩

/-- A text begins with a word, unless there is none in it. -/
theorem skipSpace_cases (input : List Char) :
    skipSpace input = [] ∧ tokens input = [] ∨
      ∃ word after, IsWord word ∧ EndsWord after ∧ skipSpace input = word ++ after ∧
        tokens input = word :: tokens after := by
  cases hItem : skipSpace input with
  | nil =>
      refine Or.inl ⟨rfl, ?_⟩
      rw [← tokens_skipSpace, hItem, tokens_nil]
  | cons c item =>
      have hFirst : isspace c = false := by
        rw [skipSpace] at hItem
        exact head?_dropWhile (by rw [hItem]; rfl)
      have hWord : IsWord ((c :: item).takeWhile fun c => !isspace c) := by
        constructor
        · simp [hFirst]
        · intro c hMem
          simpa using List.mem_takeWhile_imp hMem
      have hEnds : EndsWord ((c :: item).dropWhile fun c => !isspace c) := by
        intro c hHead
        simpa using head?_dropWhile hHead
      refine Or.inr ⟨_, _, hWord, hEnds, List.takeWhile_append_dropWhile.symm, ?_⟩
      rw [← tokens_append hWord hEnds, List.takeWhile_append_dropWhile, ← hItem, tokens_skipSpace]

/-! The conversions, word by word -/

theorem string_nil (h : tokens input = []) : string input = none := by
  rcases skipSpace_cases input with ⟨hItem, -⟩ | ⟨word, after, -, -, -, hTokens⟩
  · exact if_pos hItem
  · simp [hTokens] at h

theorem string_cons (h : tokens input = word :: rest) :
    ∃ after, string input = some (word, after) ∧ tokens after = rest := by
  rcases skipSpace_cases input with ⟨-, hNone⟩ | ⟨first, after, hWord, hEnds, hItem, hTokens⟩
  · simp [hNone] at h
  · obtain ⟨rfl, rfl⟩ := List.cons.inj (hTokens.symm.trans h)
    have hAfter : ∀ c ∈ after.head?, (!isspace c) = false := by
      intro c hHead
      rw [hEnds c hHead, Bool.not_true]
    have hSpan := span_append hAfter first
    have hAll : first.takeWhile (fun c => !isspace c) = first :=
      List.takeWhile_eq_self_iff.mpr fun c hMem => by simp [hWord.noSpace c hMem]
    have hNone : first.dropWhile (fun c => !isspace c) = [] :=
      List.dropWhile_eq_nil_iff.mpr fun c hMem => by simp [hWord.noSpace c hMem]
    have hSome : first ++ after ≠ [] := by simp [hWord.nonempty]
    refine ⟨after, ?_, rfl⟩
    rw [string, hItem]
    simp only [if_neg hSome, hSpan, hAll, hNone, List.nil_append]

theorem isDigit_of_isspace (h : isspace c = true) : c.isDigit = false := by
  have hBelow : c.toNat < 48 := by
    simp only [isspace, Bool.or_eq_true, beq_iff_eq, Bool.and_eq_true, decide_eq_true_eq] at h
    omega
  rw [Char.isDigit, Bool.and_eq_false_iff, decide_eq_false_iff_not]
  exact Or.inl (Nat.not_le_of_lt hBelow)

theorem skipSpace_word (hWord : IsWord word) (input : List Char) :
    skipSpace (word ++ input) = word ++ input := by
  obtain ⟨c, rest, rfl⟩ := List.exists_cons_of_ne_nil hWord.nonempty
  have hFirst := hWord.noSpace c List.mem_cons_self
  rw [List.cons_append, skipSpace, List.dropWhile_cons, hFirst]
  rfl

theorem afterSign_append (hWord : IsWord word) (input : List Char) :
    afterSign (word ++ input) = afterSign word ++ input := by
  obtain ⟨c, rest, rfl⟩ := List.exists_cons_of_ne_nil hWord.nonempty
  by_cases hSign : some c = some '-' ∨ some c = some '+'
  · exact (if_pos hSign).trans (congrArg (· ++ input) (if_pos hSign).symm)
  · exact (if_neg hSign).trans (congrArg (· ++ input) (if_neg hSign).symm)

/-- A numeral is in one word. -/
theorem numeral_append {α : Type*} (convert : Bool → Nat → Option α) (hWord : IsWord word)
    (hEnds : EndsWord input) :
    numeral convert (word ++ input) = (numeral convert word).lift (· ++ input) := by
  have hSpan := span_append (fun c hHead => isDigit_of_isspace (hEnds c hHead)) (afterSign word)
  have hHead : (word ++ input).head? = word.head? := by
    rw [List.head?_append_of_ne_nil _ hWord.nonempty]
  have hSkip : skipSpace word = word := by
    simpa using skipSpace_word hWord []
  simp only [numeral, skipSpace_word hWord, hSkip, afterSign_append hWord, hHead, hSpan]
  split_ifs
  · rfl
  · cases convert (decide (word.head? = some '-')) _ <;> rfl

/-- `%u` looks at one word only. -/
theorem unsigned_append (hWord : IsWord word) (hEnds : EndsWord input) :
    unsigned (word ++ input) = (unsigned word).lift (· ++ input) := by
  rw [unsigned_eq_numeral]
  exact numeral_append _ hWord hEnds

/-! The same on words -/

/-- What a conversion leaves of a word comes before the next words. -/
def putBack (left : List Char) (rest : List (List Char)) : List (List Char) :=
  if left = [] then rest else left :: rest

/-- `%u` on the words of a text. -/
def number : List (List Char) → Outcome (List (List Char)) Nat
  | [] => .fail []
  | word :: rest => (unsigned word).lift fun left => putBack left rest

/-- Numbers into fields that hold what they held before, as far as there are numbers. -/
def numbers : List Nat → List (List Char) → Outcome (List (List Char)) (List Nat)
  | [], rest => .ok [] rest
  | field :: fields, words =>
      match number words with
      | .undefined => .undefined
      | .fail rest => .ok (field :: fields) rest
      | .ok value rest => (numbers fields rest).bind fun values rest => .ok (value :: values) rest

/-- What remains after this many fields, whatever they hold. -/
def skipNumbers (count : Nat) (words : List (List Char)) : Option (List (List Char)) :=
  (numbers (List.replicate count 0) words).state?

theorem numbers_nil (fields : List Nat) : numbers fields [] = .ok fields [] := by
  cases fields <;> rfl

theorem state?_numbers (fields : List Nat) (words : List (List Char)) :
    (numbers fields words).state? = skipNumbers fields.length words := by
  induction fields generalizing words with
  | nil => rfl
  | cons field fields ih =>
      rw [skipNumbers, List.length_cons, List.replicate_succ, numbers, numbers]
      cases number words with
      | undefined => rfl
      | fail rest => rfl
      | ok value rest =>
          simp only [Outcome.state?_bind_ok]
          exact ih rest

theorem numbers_neverFails (fields : List Nat) (words : List (List Char)) :
    (numbers fields words).NeverFails := by
  induction fields generalizing words with
  | nil =>
      intro rest
      simp [numbers]
  | cons field fields ih =>
      rw [numbers]
      cases number words with
      | undefined => simp [Outcome.NeverFails]
      | fail left => simp [Outcome.NeverFails]
      | ok value left =>
          apply (ih left).bind
          intro values last
          simp [Outcome.NeverFails]

theorem unsigned_ends (word : List Char) : (unsigned word).Ends (· <:+ word) := by
  have hSkip : skipSpace word <:+ word := List.dropWhile_suffix _
  have hSign : afterSign (skipSpace word) <:+ skipSpace word := by
    rw [afterSign]
    split_ifs
    · exact List.tail_suffix _
    · exact List.suffix_refl _
  have hRest : (afterSign (skipSpace word)).dropWhile Char.isDigit <:+ word :=
    ((List.dropWhile_suffix _).trans hSign).trans hSkip
  simp only [unsigned]
  split_ifs
  · exact hRest
  · exact hRest
  · exact hRest
  · exact trivial

theorem tokens_left (hWord : IsWord word) (hEnds : EndsWord input) (hLeft : left <:+ word) :
    tokens (left ++ input) = putBack left (tokens input) := by
  by_cases hNone : left = []
  · rw [putBack, if_pos hNone, hNone, List.nil_append]
  · rw [putBack, if_neg hNone]
    exact tokens_append ⟨hNone, fun c hMem => hWord.noSpace c (hLeft.subset hMem)⟩ hEnds

theorem unsigned_tokens (input : List Char) :
    (unsigned input).lift tokens = number (tokens input) := by
  have hAgain : skipSpace (skipSpace input) = skipSpace input :=
    List.dropWhile_idempotent isspace input
  have hSkip : unsigned input = unsigned (skipSpace input) := by
    rw [unsigned, unsigned, hAgain]
  rcases skipSpace_cases input with ⟨hItem, hTokens⟩ | ⟨word, after, hWord, hEnds, hItem, hTokens⟩
  · rw [hSkip, hItem, hTokens]
    rfl
  · rw [hSkip, hItem, hTokens, unsigned_append hWord hEnds, number]
    have hLeft := unsigned_ends word
    cases hCall : unsigned word with
    | undefined => rfl
    | fail left =>
        rw [hCall] at hLeft
        exact congrArg Outcome.fail (tokens_left hWord hEnds hLeft)
    | ok value left =>
        rw [hCall] at hLeft
        exact congrArg (Outcome.ok value) (tokens_left hWord hEnds hLeft)

/-- `fscanf` sees the words of a text only. -/
theorem fscanf_tokens (format : List Directive) (fields : List Nat) (input : List Char)
    (hLength : format.count .unsigned = fields.length) :
    (fscanf format fields input).lift tokens = numbers fields (tokens input) := by
  induction format generalizing fields input with
  | nil =>
      obtain rfl : fields = [] := List.eq_nil_of_length_eq_zero hLength.symm
      rfl
  | cons directive format ih =>
      cases directive with
      | space =>
          rw [fscanf, ih fields _ hLength, tokens_skipSpace]
      | unsigned =>
          cases fields with
          | nil => simp at hLength
          | cons field fields =>
              have hRest : format.count .unsigned = fields.length := by
                simpa using hLength
              rw [fscanf, numbers, ← unsigned_tokens]
              cases unsigned input with
              | undefined => rfl
              | fail rest => rfl
              | ok value rest =>
                  rw [Outcome.lift_ok]
                  simp only [← ih fields rest hRest]
                  cases fscanf format fields rest <;> rfl

/-! Numerals -/

/-- The word is a numeral for `%u`, with nothing after it. -/
def Denotes (word : List Char) (value : Nat) : Prop := unsigned word = .ok value []

theorem numbers_denotes {words : List (List Char)} {values : List Nat}
    (h : List.Forall₂ Denotes words values) (fields : List Nat)
    (hLength : fields.length = values.length) (rest : List (List Char)) :
    numbers fields (words ++ rest) = .ok values rest := by
  induction h generalizing fields with
  | nil =>
      obtain rfl : fields = [] := List.eq_nil_of_length_eq_zero hLength
      rfl
  | @cons word value words values hWord _ ih =>
      cases fields with
      | nil => simp at hLength
      | cons field fields =>
          have hNumber : number (word :: (words ++ rest)) = .ok value (words ++ rest) := by
            rw [number, hWord]
            rfl
          rw [List.cons_append, numbers, hNumber]
          simp only [ih fields (Nat.succ.inj hLength), Outcome.bind_ok]

def decimal (value : Nat) : List Char := Nat.toDigits 10 value

private theorem isDigit_decimal (value : Nat) : ∀ c ∈ decimal value, c.isDigit = true :=
  fun _ hMem => Nat.isDigit_of_mem_toDigits (by decide) (by decide) hMem

theorem isWord_decimal (value : Nat) : IsWord (decimal value) := by
  constructor
  · exact Nat.toDigits_ne_nil
  · intro c hMem
    by_contra hSpace
    have hDigit := isDigit_of_isspace (eq_true_of_ne_false hSpace)
    rw [isDigit_decimal value c hMem] at hDigit
    cases hDigit

private theorem head?_decimal (value : Nat) (hSign : c.isDigit = false) :
    (decimal value).head? ≠ some c := by
  intro hHead
  rw [isDigit_decimal value c (List.mem_of_mem_head? hHead)] at hSign
  cases hSign

/-- A number with or without a minus sign. -/
private theorem numeral_digits {α : Type*} (convert : Bool → Nat → Option α) {word : List Char}
    (hWord : IsWord word) {value : Nat} (hSign : afterSign word = decimal value) :
    numeral convert word =
      match convert (decide (word.head? = some '-')) value with
      | none => .undefined
      | some value => .ok value [] := by
  have hItem : skipSpace word = word := by
    simpa using skipSpace_word hWord []
  have hDigits : (decimal value).takeWhile Char.isDigit = decimal value :=
    List.takeWhile_eq_self_iff.mpr (isDigit_decimal value)
  have hRest : (decimal value).dropWhile Char.isDigit = [] :=
    List.dropWhile_eq_nil_iff.mpr (isDigit_decimal value)
  have hValue : Nat.ofDigitChars 10 (decimal value) 0 = value :=
    Nat.ofDigitChars_toDigits (by decide) (by decide)
  rw [numeral]
  simp only [hItem, hSign, hDigits, hRest, hValue, if_neg (isWord_decimal value).nonempty]

theorem numeral_decimal {α : Type*} (convert : Bool → Nat → Option α) (value : Nat) :
    numeral convert (decimal value) =
      match convert false value with
      | none => .undefined
      | some value => .ok value [] := by
  have hMinus : (decimal value).head? ≠ some '-' := head?_decimal value (by decide)
  have hPlus : (decimal value).head? ≠ some '+' := head?_decimal value (by decide)
  have hSign : afterSign (decimal value) = decimal value := by
    rw [afterSign, if_neg (not_or.mpr ⟨hMinus, hPlus⟩)]
  rw [numeral_digits convert (isWord_decimal value) hSign, decide_eq_false hMinus]

theorem isWord_minus (value : Nat) : IsWord ('-' :: decimal value) := by
  have hMinus : isspace '-' = false := by decide
  refine ⟨List.cons_ne_nil _ _, fun c hMem => ?_⟩
  rcases List.mem_cons.mp hMem with rfl | hMem
  · exact hMinus
  · exact (isWord_decimal value).noSpace c hMem

theorem numeral_minus {α : Type*} (convert : Bool → Nat → Option α) (value : Nat) :
    numeral convert ('-' :: decimal value) =
      match convert true value with
      | none => .undefined
      | some value => .ok value [] := by
  have hSign : afterSign ('-' :: decimal value) = decimal value := if_pos (Or.inl rfl)
  rw [numeral_digits convert (isWord_minus value) hSign]
  rfl

theorem denotes_decimal {value : Nat} (h : value < 4294967296) :
    Denotes (decimal value) value := by
  rw [Denotes, unsigned_eq_numeral, numeral_decimal]
  simp [h]

/-! Lines -/

/-- These words on a line. -/
def line : List (List Char) → List Char
  | [] => [Char.ofNat 10]
  | [word] => word ++ [Char.ofNat 10]
  | word :: words => word ++ ' ' :: line words

theorem tokens_line {words : List (List Char)} (h : ∀ word ∈ words, IsWord word)
    (input : List Char) : tokens (line words ++ input) = words ++ tokens input := by
  have hNewline : isspace (Char.ofNat 10) = true := by decide
  have hSpace : isspace ' ' = true := by decide
  fun_induction line words with
  | case1 => exact tokens_space hNewline input
  | case2 word =>
      have hEnds : EndsWord (Char.ofNat 10 :: input) := by
        intro c hHead
        obtain rfl := Option.some.inj hHead
        exact hNewline
      rw [List.append_assoc, List.singleton_append, tokens_append (h word List.mem_cons_self) hEnds,
        tokens_space hNewline]
      rfl
  | case3 word words hWords ih =>
      have hEnds : EndsWord (' ' :: (line words ++ input)) := by
        intro c hHead
        obtain rfl := Option.some.inj hHead
        exact hSpace
      rw [List.append_assoc, List.cons_append, tokens_append (h word List.mem_cons_self) hEnds,
        tokens_space hSpace, ih fun word hMem => h word (List.mem_cons_of_mem _ hMem)]
      rfl

end Scanf

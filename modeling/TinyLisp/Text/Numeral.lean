/-!
# Decimal numerals

An integer is written with its digits and, when it is negative, a minus sign before them. A numeral may have leading zeros,
so one integer has many numerals; `parse?_spell` says that the numeral written for an integer is read as that integer.
-/

namespace TinyLisp.Numeral

/-- Whether a text is made of ASCII digits only, one at least. -/
def isDigits (cs : List Char) : Bool := !cs.isEmpty && cs.all Char.isDigit

/-- The integer that a numeral stands for: digits, or a minus sign and digits; nothing for any other text. -/
def parse? : List Char → Option Int
  | '-' :: ds => if isDigits ds then some (-(Nat.ofDigitChars 10 ds 0 : Int)) else none
  | ds => if isDigits ds then some (Nat.ofDigitChars 10 ds 0 : Int) else none

/-- The numeral of a natural number, without leading zeros. -/
def spellNat (n : Nat) : List Char := Nat.toDigits 10 n

/-- The numeral of an integer, without leading zeros, with a sign only below zero. -/
def spell : Int → List Char
  | .ofNat n => spellNat n
  | .negSucc n => '-' :: spellNat (n + 1)

/-- The numeral of a natural number as a string. -/
def text (n : Nat) : String := String.ofList (spellNat n)

/-- A numeral of a natural number is made of digits. -/
theorem isDigits_spellNat (n : Nat) : isDigits (spellNat n) = true := by
  simp only [isDigits, spellNat, Bool.and_eq_true, Bool.not_eq_true', List.isEmpty_eq_false_iff, List.all_eq_true]
  exact ⟨Nat.toDigits_ne_nil, fun c h => Nat.isDigit_of_mem_toDigits (by decide) (by decide) h⟩

/-- A text of digits does not start with a minus sign. -/
theorem ne_minus_of_isDigits {c : Char} {cs : List Char} (h : isDigits (c :: cs) = true) : c ≠ '-' := by
  rintro rfl
  simp [isDigits] at h

/-- A text of digits stands for its value. -/
theorem parse?_of_isDigits {ds : List Char} (h : isDigits ds = true) :
    parse? ds = some (Nat.ofDigitChars 10 ds 0 : Int) := by
  unfold parse?
  split
  · exact absurd rfl (ne_minus_of_isDigits h)
  · simp [h]

/-- The numeral of an integer is read as that integer. -/
theorem parse?_spell (i : Int) : parse? (spell i) = some i := by
  cases i with
  | ofNat n => simpa [spell, spellNat] using parse?_of_isDigits (isDigits_spellNat n)
  | negSucc n =>
    simp only [spell, parse?, isDigits_spellNat, if_true]
    simp only [spellNat, Nat.ofDigitChars_ten_toDigits]
    rfl

end TinyLisp.Numeral

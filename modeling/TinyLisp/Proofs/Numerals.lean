import Mathlib
import TinyLisp.Proofs.Reports
import TinyLisp.Proofs.RoundTrip

/-!
# Integer literals

A numeral is digits, with or without a minus sign before them: as many as one likes, and zeros in front count for nothing. Its
value is what the digits are worth in their places. `integer_literals_exact` says that a token is read as an integer exactly when it
is a numeral of that value, and is out of range exactly when it is a numeral of a value that no word has.

The reader forms the value in exact integers and lets it through the gate to the words. Digit by digit in words, given up at the
first overflow, comes to the same (`Numeral.accumulate?_eq`). On either side of zero the values only grow, so what is out of range
on the way is out of range in the end, and the smallest word is reached without passing it.
-/

namespace TinyLisp

/-- A text of digits, one at least, with or without a minus sign before them. -/
structure Numeral where
  negative : Bool
  digits : List Char
  digits_ne_nil : digits ≠ []
  isDigit : ∀ d ∈ digits, d.isDigit = true

namespace Numeral

/-! ## Values -/

/-- The characters of a numeral. -/
def chars (n : Numeral) : List Char := if n.negative then '-' :: n.digits else n.digits

/-- The text of a numeral. -/
def spelling (n : Numeral) : String := String.ofList n.chars

/-- The number that a digit stands for by itself. -/
def digitValue (d : Char) : Nat := d.toNat - '0'.toNat

/-- The number that digits stand for: each counts as often as the power of ten says that belongs to its place. -/
def placeValue : List Char → Nat
  | [] => 0
  | d :: ds => digitValue d * 10 ^ ds.length + placeValue ds

/-- A number, on the side of zero that a sign says. -/
def signed (negative : Bool) (v : Nat) : Int := if negative then -(v : Int) else v

/-- The integer that a numeral stands for. -/
def value (n : Numeral) : Int := signed n.negative (placeValue n.digits)

/-- The number of digits, from the first to the last, is the sum over their places. -/
theorem ofDigitChars_eq_placeValue (ds : List Char) : Nat.ofDigitChars 10 ds 0 = placeValue ds := by
  induction ds with
  | nil => rfl
  | cons d ds ih =>
    rw [Nat.ofDigitChars_cons, Nat.ofDigitChars_eq_ofDigitChars_zero, ih, placeValue, digitValue, Nat.mul_zero, Nat.zero_add,
      Nat.mul_comm]

/-- A text stands for an integer exactly when it is that of a numeral of this value. -/
theorem denotes_iff {cs : List Char} {i : Int} : Denotes cs i ↔ ∃ n : Numeral, n.chars = cs ∧ n.value = i := by
  constructor
  · rintro (⟨hne, hd⟩ | ⟨hne, hd⟩)
    · exact ⟨⟨false, _, hne, hd⟩, rfl, by rw [ofDigitChars_eq_placeValue]; rfl⟩
    · exact ⟨⟨true, _, hne, hd⟩, rfl, by rw [ofDigitChars_eq_placeValue]; rfl⟩
  · rintro ⟨⟨_ | _, ds, hne, hd⟩, rfl, rfl⟩
    · rw [value, ← ofDigitChars_eq_placeValue]
      exact .plain hne hd
    · rw [value, ← ofDigitChars_eq_placeValue]
      exact .minus hne hd

/-- A numeral stands for its value. -/
theorem denotes (n : Numeral) : Denotes n.chars n.value := denotes_iff.mpr ⟨n, rfl, rfl⟩

/-! ## Digit by digit -/

/-- The word after one more digit. There is none if ten times the word, or that together with the digit, is out of range. -/
def push? (negative : Bool) (w : Int64) (d : Char) : Option Int64 := do
  let tens ← toWord? (10 * w.toInt)
  toWord? (tens.toInt + signed negative (digitValue d))

/-- The word that the digits of a numeral lead to from zero. -/
def accumulate? (n : Numeral) : Option Int64 := n.digits.foldlM (push? n.negative) 0

/-- One more digit is put behind a number on either side of zero. -/
theorem signed_push (negative : Bool) (v d : Nat) : signed negative (10 * v + d) = 10 * signed negative v + signed negative d := by
  cases negative <;> simp only [signed, Bool.false_eq_true, if_false, if_true] <;> omega

/-- Behind a number that is out of range all larger ones are, on the same side of zero. -/
theorem toWord?_signed_eq_none {negative : Bool} {v u : Nat} (h : toWord? (signed negative v) = none) (hle : v ≤ u) :
    toWord? (signed negative u) = none := by
  rw [toWord?_eq_none_iff] at h ⊢
  cases negative <;> simp only [signed, InRange, Bool.false_eq_true, if_false, if_true] at h ⊢ <;> omega

/-- One more digit leads from a word to the word of the number with the digit behind it, if there is one. -/
theorem push?_eq {negative : Bool} {w : Int64} {v : Nat} (hw : w.toInt = signed negative v) (d : Char) :
    push? negative w d = toWord? (signed negative (10 * v + digitValue d)) := by
  have htens : 10 * w.toInt = signed negative (10 * v) := by
    rw [hw, ← Nat.add_zero (10 * v), signed_push]
    cases negative <;> simp [signed]
  rw [push?, htens]
  cases ht : toWord? (signed negative (10 * v)) with
  | none => exact (toWord?_signed_eq_none ht (Nat.le_add_right _ _)).symm
  | some tens =>
    have hvalue : tens.toInt + signed negative (digitValue d) = signed negative (10 * v + digitValue d) := by
      rw [toWord?_eq_some_iff.mp ht, ← htens, hw, signed_push]
    exact congrArg toWord? hvalue

/-- More digits lead from the word of a number to that of the number with the digits behind it. Where one is missing on the way, the
last one is missing, too. -/
theorem foldlM_push? (negative : Bool) (ds : List Char) (v : Nat) :
    (toWord? (signed negative v)).bind (ds.foldlM (push? negative)) = toWord? (signed negative (Nat.ofDigitChars 10 ds v)) := by
  induction ds generalizing v with
  | nil => exact Option.bind_fun_some _
  | cons d ds ih =>
    rw [Nat.ofDigitChars_cons, ← ih]
    cases hv : toWord? (signed negative v) with
    | none =>
      have hle : v ≤ 10 * v + (d.toNat - '0'.toNat) := by omega
      rw [toWord?_signed_eq_none hv hle]
      rfl
    | some w =>
      rw [Option.bind_some, List.foldlM_cons, push?_eq (toWord?_eq_some_iff.mp hv)]
      rfl

/-- Digit by digit in words a numeral leads to the word of its value, and to none exactly if there is none. -/
theorem accumulate?_eq (n : Numeral) : n.accumulate? = toWord? n.value := by
  have hzero : toWord? (signed n.negative 0) = some 0 := toWord?_eq_some_iff.mpr (by cases n.negative <;> rfl)
  have hfold := foldlM_push? n.negative n.digits 0
  rw [hzero, Option.bind_some, ofDigitChars_eq_placeValue] at hfold
  exact hfold

end Numeral

/-! ## Reading -/

variable {t : Token}

/-- A token stands for an integer exactly when its text is that of a numeral of this value. -/
theorem Token.denotes_iff {i : Int} :
    Numeral.Denotes t.chars i ↔ ∃ n : Numeral, n.spelling = t.text ∧ n.value = i := by
  rw [Numeral.denotes_iff]
  simp only [Numeral.spelling, Token.chars, ← String.toList_inj, String.toList_ofList]

/-- A token is read as an integer exactly when it is a numeral of its value. -/
theorem readAtom_eq_int_iff {w : Int64} {token : Option Token} :
    readAtom t = .ok (.int w token) ↔ token = some t ∧ ∃ n : Numeral, n.spelling = t.text ∧ n.value = w.toInt := by
  rw [← Token.denotes_iff]
  constructor
  · intro h
    unfold readAtom at h
    repeat' split at h
    all_goals cases h
    next hi _ hw =>
    exact ⟨rfl, toWord?_eq_some_iff.mp hw ▸ Numeral.parse?_eq_some_iff.mp hi⟩
  · rintro ⟨rfl, hi⟩
    exact (Atom.int hi rfl).readAtom

/-- A token is out of range exactly when it is a numeral of a value out of range. -/
theorem readAtom_eq_integerOutOfRange_iff {text : String} :
    readAtom t = .error (.integerOutOfRange text) ↔
      text = t.text ∧ ∃ n : Numeral, n.spelling = t.text ∧ ¬InRange n.value := by
  rw [readAtom_eq_error_iff]
  constructor
  · rintro ⟨hi, hrange⟩
    obtain ⟨n, hn, rfl⟩ := Token.denotes_iff.mp hi
    exact ⟨rfl, n, hn, hrange⟩
  · rintro ⟨rfl, n, hn, hrange⟩
    exact .range (Token.denotes_iff.mpr ⟨n, hn, rfl⟩) hrange

/-- A text with one token is read as what the token is read as, unless the token is a delimiter. -/
theorem readText_eq_readAtom {source : String} (h : content (tokenize source) = [t])
    (hd : ¬Shape.IsDelimiter t.chars) (limit : Nat) : readText limit source = readAtom t := by
  obtain ⟨ho, hc⟩ := Shape.not_isDelimiter_iff.mp hd
  rw [readText, Pass.readTokens_eq_run, h, Pass.run, Pass.runFrom_cons, Pass.step_atom ho hc]
  cases readAtom t <;> rfl

namespace Numeral

/-- A numeral is the one token of its text. -/
theorem content_tokenize_spelling (n : Numeral) : content (tokenize n.spelling) = [⟨n.spelling, 0⟩] := by
  have htokens : tokenize n.spelling = [⟨n.spelling, 0⟩] := by
    have hstands := (Lexer.stands_of_denotes n.denotes).tokens Lexer.breaks_nil 0
    rw [List.append_nil, Lexer.tokens] at hstands
    rw [tokenize, spelling, String.toList_ofList, hstands]
  have hcomment : (⟨n.spelling, 0⟩ : Token).isComment = false := by
    have hhead := n.denotes.head?_ne (c := ';') (by decide) (by decide)
    rwa [Token.isComment, Token.chars, spelling, String.toList_ofList, beq_eq_false_iff_ne]
  rw [htokens, content_cons hcomment]
  rfl

/-- A text with a numeral as its one token is read as the numeral is. -/
theorem readText_of_content (n : Numeral) {source : String} {offset : Nat}
    (h : content (tokenize source) = [⟨n.spelling, offset⟩]) (limit : Nat) :
    readText limit source = readAtom ⟨n.spelling, offset⟩ := by
  refine readText_eq_readAtom h ?_ limit
  rw [Token.chars, spelling, String.toList_ofList]
  exact n.denotes.not_isDelimiter

/-- The numeral that is written for an integer has the integer as its value. -/
theorem exists_spelling_eq_print (w : Int64) (token : Option Token) (mode : PrintMode) :
    ∃ n : Numeral, n.spelling = (Form.int w token).print mode ∧ n.value = w.toInt := by
  obtain ⟨n, hchars, hvalue⟩ := denotes_iff.mp (parse?_eq_some_iff.mp (parse?_spell w.toInt))
  exact ⟨n, congrArg String.ofList hchars, hvalue⟩

end Numeral

/-- An integer in a form that is read is the value of a numeral among the tokens, and keeps this token. -/
theorem exists_numeral_of_readText {limit : Nat} {source : String} {f : Form} (h : readText limit source = .ok f) {w : Int64}
    {token : Option Token} (hw : .int w token ∈ f.parts) :
    ∃ t ∈ content (tokenize source), token = some t ∧ ∃ n : Numeral, n.spelling = t.text ∧ n.value = w.toInt := by
  have hthrough : f.Throughout fun g => ∀ w token, g = .int w token →
      ∃ t ∈ content (tokenize source), token = some t ∧ ∃ n : Numeral, n.spelling = t.text ∧ n.value = w.toInt := by
    refine throughout_of_readText h (fun g hg => ?_) fun t ht g hatom => ?_
    · rintro w token rfl
      cases hg
    · rintro w token rfl
      exact ⟨t, ht, readAtom_eq_int_iff.mp hatom.readAtom⟩
  exact hthrough _ hw w token rfl

/-- A numeral that is reported to be out of range is among the tokens, and is out of range. -/
theorem exists_numeral_of_readText_error {limit : Nat} {source text : String}
    (h : readText limit source = .error (.integerOutOfRange text)) :
    ∃ t ∈ content (tokenize source), text = t.text ∧ ∃ n : Numeral, n.spelling = t.text ∧ ¬InRange n.value := by
  cases names_of_readText h with
  | spoiled ht ha => exact ⟨_, ht, readAtom_eq_integerOutOfRange_iff.mp ha⟩

/-- Integer literals are exact. A token is read as an integer exactly when its text is a numeral, with any number of digits and with
any zeros in front, whose value is the integer, and it is out of range exactly when its text is a numeral of a value that no 64-bit
integer has. A text whose one token is a numeral is read so, and the spelling of a numeral is such a text. Integers in whatever is
read come from numerals of their values among the tokens, and so do reports that one is out of range. Whatever an integer is printed
as is read as this integer. Computing the value digit by digit in words, with an overflow as a failure, is as exact. -/
theorem integer_literals_exact :
    (∀ t w token, readAtom t = .ok (.int w token) ↔
        token = some t ∧ ∃ n : Numeral, n.spelling = t.text ∧ n.value = w.toInt) ∧
      (∀ t text, readAtom t = .error (.integerOutOfRange text) ↔
        text = t.text ∧ ∃ n : Numeral, n.spelling = t.text ∧ ¬InRange n.value) ∧
      (∀ n : Numeral, content (tokenize n.spelling) = [⟨n.spelling, 0⟩] ∧
        ∀ limit source offset, content (tokenize source) = [⟨n.spelling, offset⟩] →
          (InRange n.value → ∃ w, w.toInt = n.value ∧ readText limit source = .ok (.int w (some ⟨n.spelling, offset⟩))) ∧
            (¬InRange n.value → readText limit source = .error (.integerOutOfRange n.spelling))) ∧
      (∀ limit source f, readText limit source = .ok f → ∀ w token, .int w token ∈ f.parts →
        ∃ t ∈ content (tokenize source), token = some t ∧ ∃ n : Numeral, n.spelling = t.text ∧ n.value = w.toInt) ∧
      (∀ limit source text, readText limit source = .error (.integerOutOfRange text) →
        ∃ t ∈ content (tokenize source), text = t.text ∧ ∃ n : Numeral, n.spelling = t.text ∧ ¬InRange n.value) ∧
      (∀ w token mode limit, readText limit ((Form.int w token).print mode) =
        .ok (.int w (some ⟨(Form.int w token).print mode, 0⟩))) ∧
      ∀ (n : Numeral) w, n.accumulate? = some w ↔ w.toInt = n.value := by
  refine ⟨fun _ _ _ => readAtom_eq_int_iff, fun _ _ => readAtom_eq_integerOutOfRange_iff, fun n => ?_,
    fun _ _ _ h _ _ => exists_numeral_of_readText h, fun _ _ _ => exists_numeral_of_readText_error,
    fun w token mode limit => ?_, fun n w => ?_⟩
  · refine ⟨n.content_tokenize_spelling, fun limit source offset hcontent => ?_⟩
    rw [n.readText_of_content hcontent]
    refine ⟨fun hrange => ?_, fun hrange => readAtom_eq_integerOutOfRange_iff.mpr ⟨rfl, n, rfl, hrange⟩⟩
    obtain ⟨w, -, hw⟩ := exists_toWord? hrange
    exact ⟨w, hw, readAtom_eq_int_iff.mpr ⟨rfl, n, rfl, hw.symm⟩⟩
  · obtain ⟨n, hn, hvalue⟩ := Numeral.exists_spelling_eq_print w token mode
    rw [← hn, n.readText_of_content n.content_tokenize_spelling]
    exact readAtom_eq_int_iff.mpr ⟨rfl, n, rfl, hvalue⟩
  · rw [n.accumulate?_eq, toWord?_eq_some_iff]

/-- The smallest integer is read with zeros in front, and with a blank before it and a comment behind it the number after the largest
one is out of range. -/
theorem integer_literals_exact_at_the_ends :
    readText 0 "-0009223372036854775808" = .ok (.int Int64.minValue (some ⟨"-0009223372036854775808", 0⟩)) ∧
      readText 0 " 9223372036854775808 ;" = .error (.integerOutOfRange "9223372036854775808") := by
  obtain ⟨-, -, hread, -⟩ := integer_literals_exact
  refine ⟨?_, ?_⟩
  · have hdenotes : Numeral.Denotes (⟨"-0009223372036854775808", 0⟩ : Token).chars (-0x8000000000000000) :=
      Numeral.parse?_eq_some_iff.mp (by cbv)
    obtain ⟨n, hn, hvalue⟩ := Token.denotes_iff.mp hdenotes
    obtain ⟨hcontent, hresult⟩ := hread n
    obtain ⟨w, hw, hok⟩ := (hresult 0 _ 0 hcontent).1 (by rw [hvalue]; decide)
    obtain rfl : w = Int64.minValue := Int64.toInt_inj.mp (hw.trans hvalue)
    rwa [hn] at hok
  · have hdenotes : Numeral.Denotes (⟨"9223372036854775808", 1⟩ : Token).chars 0x8000000000000000 :=
      Numeral.parse?_eq_some_iff.mp (by cbv)
    obtain ⟨n, hn, hvalue⟩ := Token.denotes_iff.mp hdenotes
    have hcontent : content (tokenize " 9223372036854775808 ;") = [⟨n.spelling, 1⟩] := by
      rw [hn]
      cbv
    rw [((hread n).2 0 _ 1 hcontent).2 (by rw [hvalue]; decide), hn]

end TinyLisp

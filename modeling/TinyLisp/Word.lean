/-!
# Integers of the language

The language computes with integers of 64 bits in two's complement. `toWord?` is the one gate from the mathematical integers:
it refuses what does not fit, and nothing else (`toWord?_eq_none_iff`). `toWord?_eq_some_iff` says that what it lets through keeps
its value.
-/

namespace TinyLisp

/-- Whether an integer lies in the range of the 64-bit integers. -/
def fitsWord (i : Int) : Bool := -0x8000000000000000 ≤ i && i < 0x8000000000000000

/-- The 64-bit integer with the given value, if there is one. -/
def toWord? (i : Int) : Option Int64 := if fitsWord i then some (Int64.ofInt i) else none

/-- The value of a 64-bit integer lies in the range. -/
theorem fitsWord_toInt (w : Int64) : fitsWord w.toInt = true := by
  simp only [fitsWord, Bool.and_eq_true, decide_eq_true_eq]
  exact ⟨Int64.le_toInt w, Int64.toInt_lt w⟩

/-- The gate gives the word that has the value asked for, and gives one whenever there is one. -/
theorem toWord?_eq_some_iff {i : Int} {w : Int64} : toWord? i = some w ↔ w.toInt = i := by
  constructor
  · intro h
    unfold toWord? at h
    split at h
    · next hf =>
      simp only [fitsWord, Bool.and_eq_true, decide_eq_true_eq] at hf
      cases h
      exact Int64.toInt_ofInt_of_le hf.1 hf.2
    · cases h
  · rintro rfl
    simp [toWord?, fitsWord_toInt, Int64.ofInt_toInt]

/-- Whether an integer is one of the 64-bit integers. -/
def InRange (i : Int) : Prop := -0x8000000000000000 ≤ i ∧ i < 0x8000000000000000

instance (i : Int) : Decidable (InRange i) := inferInstanceAs (Decidable (_ ∧ _))

/-- The integers that fit a word are those in range. -/
theorem fitsWord_iff {i : Int} : fitsWord i = true ↔ InRange i := by
  simp [fitsWord, InRange]

/-- The integer of a word is in range. -/
theorem inRange_toInt (w : Int64) : InRange w.toInt := fitsWord_iff.mp (fitsWord_toInt w)

/-- An integer in range is that of a word. -/
theorem exists_toWord? {i : Int} (h : InRange i) : ∃ w, toWord? i = some w ∧ w.toInt = i := by
  have hw : toWord? i = some (Int64.ofInt i) := if_pos (fitsWord_iff.mpr h)
  exact ⟨_, hw, toWord?_eq_some_iff.mp hw⟩

/-- No other integer is. -/
theorem toWord?_eq_none_iff {i : Int} : toWord? i = none ↔ ¬InRange i := by
  simp [toWord?, ← fitsWord_iff]

end TinyLisp

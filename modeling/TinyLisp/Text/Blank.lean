/-!
# Blank characters, gaps and widths

What stands between two tokens is made of gap characters: those with the Unicode property White_Space, and the comma.
Positions in a text are counted in bytes of its UTF-8 form, and `width_toList` says that `width` counts them. A text is cut at
such a position by `dropWidth`, and `dropWidth_eq_some_iff` says where it can be cut.
-/

namespace TinyLisp

/-- Whether the code point of a character lies in one of some closed ranges. -/
def covers (ranges : List (Nat × Nat)) (c : Char) : Bool := ranges.any fun r => r.1 ≤ c.toNat && c.toNat ≤ r.2

/-- The code points with the Unicode property White_Space, as closed ranges in increasing order. -/
def blankRanges : List (Nat × Nat) :=
  [(0x09, 0x0D), (0x20, 0x20), (0x85, 0x85), (0xA0, 0xA0), (0x1680, 0x1680), (0x2000, 0x200A), (0x2028, 0x2029),
    (0x202F, 0x202F), (0x205F, 0x205F), (0x3000, 0x3000)]

/-- Whether a character has the Unicode property White_Space. -/
def isBlank (c : Char) : Bool := covers blankRanges c

/-- Whether a character separates tokens without being part of one: a blank or a comma. -/
def isGap (c : Char) : Bool := isBlank c || c == ','

/-- The number of bytes of a text in UTF-8. -/
def width : List Char → Nat
  | [] => 0
  | c :: cs => c.utf8Size + width cs

@[simp] theorem width_nil : width [] = 0 := rfl

@[simp] theorem width_cons (c : Char) (cs : List Char) : width (c :: cs) = c.utf8Size + width cs := rfl

@[simp] theorem width_append (cs ds : List Char) : width (cs ++ ds) = width cs + width ds := by
  induction cs with
  | nil => simp
  | cons c cs ih => simp [ih, Nat.add_assoc]

/-- The width of a text is the length of its encoding. -/
theorem length_flatMap_utf8EncodeChar (cs : List Char) : (cs.flatMap String.utf8EncodeChar).length = width cs := by
  induction cs with
  | nil => rfl
  | cons c cs ih => rw [List.flatMap_cons, List.length_append, ih, String.length_utf8EncodeChar, width_cons]

/-- The width of a string's characters is the string's size in bytes. -/
theorem width_toList (s : String) : width s.toList = s.utf8ByteSize := by
  rw [← String.size_toByteArray, ← String.utf8Encode_toList, ← length_flatMap_utf8EncodeChar]
  simp [List.utf8Encode]

/-- A text without as many bytes of characters at its head; none if no characters at its head make up that many. -/
def dropWidth : Nat → List Char → Option (List Char)
  | 0, cs => some cs
  | _ + 1, [] => none
  | n + 1, c :: cs => if c.utf8Size ≤ n + 1 then dropWidth (n + 1 - c.utf8Size) cs else none

/-- A number of bytes is dropped where that many bytes of characters end, and nothing else is. -/
theorem dropWidth_eq_some_iff {n : Nat} {cs ds : List Char} :
    dropWidth n cs = some ds ↔ ∃ front, cs = front ++ ds ∧ width front = n := by
  constructor
  · intro h
    fun_induction dropWidth n cs with
    | case1 cs => exact ⟨[], by simpa using h⟩
    | case2 n => simp at h
    | case3 n c cs hle ih =>
      obtain ⟨front, rfl, hw⟩ := ih h
      exact ⟨c :: front, rfl, by rw [width_cons]; omega⟩
    | case4 n c cs hle => simp at h
  · rintro ⟨front, rfl, rfl⟩
    induction front with
    | nil => simp [dropWidth]
    | cons c front ih =>
      have hc := c.utf8Size_pos
      obtain ⟨m, hm⟩ : ∃ m, width (c :: front) = m + 1 := ⟨c.utf8Size + width front - 1, by rw [width_cons]; omega⟩
      rw [width_cons] at hm
      rw [width_cons, hm, List.cons_append, dropWidth, if_pos (by omega), ← hm, Nat.add_sub_cancel_left, ih]

end TinyLisp

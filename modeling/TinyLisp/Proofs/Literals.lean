import Mathlib
import TinyLisp.Proofs.Streams

/-!
# String literals

The lexer, the test for a whole literal, the reader and the writer each have an escape of their own: a backslash that takes
along any character but a newline, a run of backslashes of even length, and the three escapes that are read and written.
`literal_cut_and_read` says that they agree on what is written: the literal of any text is cut off whole before any other text,
is whole, and is read as the text.

`encode_decode_iff` is about the other way round. What stands between the quotes of a literal is a row of escapes and of other
characters, and only a newline and a quote that stand for themselves are written otherwise than they were read.
-/

namespace TinyLisp

namespace Quoted

/-- The literal of a string. -/
def literal (value : String) : String := String.ofList (encode value.toList)

/-- What is written inside a literal is the inside of a string lexeme. -/
theorem stringBody_escape (cs : List Char) : Lexer.StringBody (cs.flatMap escape) := by
  induction cs with
  | nil => exact .nil
  | cons c cs ih =>
    rw [List.flatMap_cons]
    unfold escape
    split
    · exact .pair (by decide) ih
    · exact .pair (by decide) ih
    · exact .pair (by decide) ih
    · next hq _ hb => exact .plain hb hq ih

/-- What is written inside a literal is the inside of a literal of that text. -/
theorem inside_escape (cs : List Char) : Inside (cs.flatMap escape) cs := decode_eq_ok_iff.mp (decode_escape cs)

/-- The text between the quotes of a written literal. -/
theorem inside?_encode (cs : List Char) : inside? (encode cs) = some (cs.flatMap escape) :=
  inside?_eq_some_iff.mpr ⟨rfl, (inside_escape cs).even⟩

/-- A written literal is a lexeme before any text. -/
theorem cuts_encode (cs rest : List Char) : Lexer.Cuts (encode cs) rest := .closed (stringBody_escape cs) rest

/-- A literal before any text is the first token, and the others are those of that text, moved behind it. -/
theorem tokenize_literal_append (value rest : String) :
    tokenize (literal value ++ rest)
      = ⟨literal value, 0⟩ :: (tokenize rest).map (Token.relocate ((literal value).utf8ByteSize + ·)) := by
  unfold tokenize
  rw [String.toList_append, ← Lexer.tokens_relocate, ← width_toList]
  have h := (cuts_encode value.toList rest.toList).tokens 0
  rw [Nat.zero_add] at h
  simpa [literal] using h

/-- By itself a literal is its only token. -/
theorem tokenize_literal (value : String) : tokenize (literal value) = [⟨literal value, 0⟩] := by
  have h := tokenize_literal_append value ""
  rwa [String.append_empty, show tokenize "" = [] by simp [tokenize, Lexer.tokens], List.map_nil] at h

/-- The token of a literal stands for its string. -/
theorem atom_literal (value : String) (offset : Nat) :
    Atom ⟨literal value, offset⟩ (.str value (some ⟨literal value, offset⟩)) := by
  have hchars : (⟨literal value, offset⟩ : Token).chars = '"' :: (value.toList.flatMap escape ++ ['"']) :=
    String.toList_ofList
  have h := Atom.str hchars (inside_escape value.toList)
  rwa [String.ofList_toList] at h

/-- Whatever follows the literal of a string, the literal is the first token, and the other tokens are those of what follows,
moved by the length of the literal. The literal is whole, the text between its quotes is decoded to the string, and reading it
gives the string. -/
theorem literal_cut_and_read (value rest : String) (limit : Nat) :
    tokenize (literal value ++ rest)
        = ⟨literal value, 0⟩ :: (tokenize rest).map (Token.relocate ((literal value).utf8ByteSize + ·))
      ∧ isComplete (encode value.toList) = true
      ∧ (inside? (encode value.toList)).map decode = some (.ok value.toList)
      ∧ readText limit (literal value) = .ok (.str value (some ⟨literal value, 0⟩)) := by
  refine ⟨tokenize_literal_append value rest, ?_, ?_, ?_⟩
  · rw [isComplete, inside?_encode]
    rfl
  · rw [inside?_encode, Option.map_some, decode_escape]
  · exact (atom_literal value 0).readText (tokenize_literal value) (by simp [Token.isComment, Token.chars, literal, encode]) limit

/-! ## Writing what was read -/

/-- The characters that belong to no escape, when a text is cut from left to right into escapes of two characters and other
characters. -/
def unescaped : List Char → List Char
  | '\\' :: _ :: rest => unescaped rest
  | c :: rest => c :: unescaped rest
  | [] => []

/-- A character that is no backslash belongs to no escape when none is open. -/
theorem unescaped_cons_of_ne {c : Char} (h : c ≠ '\\') (rest : List Char) :
    unescaped (c :: rest) = c :: unescaped rest := by
  rw [unescaped.eq_2]
  simp [h]

/-- A character that is written as itself is neither a newline nor a quote nor a backslash. -/
theorem escape_of_ne {c : Char} (hq : c ≠ '"') (hn : c ≠ '\n') (hb : c ≠ '\\') : escape c = [c] := by
  rw [escape.eq_4] <;> assumption

/-- The inside of a literal is what is written for the text that it stands for, unless a newline or a quote stands for itself in
it. -/
theorem Inside.escape_eq_iff {raw value : List Char} (h : Inside raw value) :
    value.flatMap escape = raw ↔ '\n' ∉ raw ∧ '"' ∉ unescaped raw := by
  induction h with
  | nil => simp [unescaped]
  | @plain c cs vs hc _ ih =>
    rw [List.flatMap_cons, unescaped_cons_of_ne hc]
    by_cases hq : c = '"'
    · simp [hq, escape]
    by_cases hn : c = '\n'
    · simp [hn, escape]
    rw [escape_of_ne hq hn hc, List.singleton_append, List.cons_inj_right, ih]
    simp [Ne.symm hq, Ne.symm hn]
  | backslash _ ih => simp [escape, unescaped, ih]
  | newline _ ih => simp [escape, unescaped, ih]
  | quote _ ih => simp [escape, unescaped, ih]

/-- The literal of the text that a raw text is decoded to is the raw text between quotes exactly when the raw text holds no newline
and no quote outside an escape. -/
theorem encode_decode_iff {raw value : List Char} (h : decode raw = .ok value) :
    encode value = '"' :: (raw ++ ['"']) ↔ '\n' ∉ raw ∧ '"' ∉ unescaped raw := by
  rw [encode, List.cons_inj_right, List.append_left_inj, (decode_eq_ok_iff.mp h).escape_eq_iff]

/-- All three escapes are written as they were read, and a quote that stands for itself is not. -/
theorem encode_decode_escapes :
    encode "x\\y\n\"".toList = '"' :: ("x\\\\y\\n\\\"".toList ++ ['"'])
      ∧ encode "x\"".toList ≠ '"' :: ("x\"".toList ++ ['"']) := by
  refine ⟨(encode_decode_iff (by rfl)).mpr (by decide), fun h => ?_⟩
  exact absurd ((encode_decode_iff (by rfl)).mp h) (by decide)

end Quoted

end TinyLisp

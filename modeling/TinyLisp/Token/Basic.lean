import TinyLisp.Text.Blank

/-!
# Tokens

A token is a piece of a source text and the byte at which it starts. The lexer makes tokens from a text, but a token may hold
any text whatever, the empty one included, and every reader of tokens has to take it as it comes.
-/

namespace TinyLisp

/-- A piece of a source text and the offset, in bytes, at which it starts. -/
structure Token where
  text : String
  offset : Nat
  deriving DecidableEq, Repr

namespace Token

/-- The characters of the token. -/
def chars (t : Token) : List Char := t.text.toList

/-- The number of bytes of the token. -/
def length (t : Token) : Nat := width t.chars

/-- The offset just past the token. -/
def stop (t : Token) : Nat := t.offset + t.length

/-- Whether the token holds no text. -/
def isEmpty (t : Token) : Bool := t.chars.isEmpty

/-- Whether the token is a comment: its text starts with a semicolon. -/
def isComment (t : Token) : Bool := t.chars.head? == some ';'

end Token

/-- The tokens left after the comments at the front. -/
def skipComments (ts : List Token) : List Token := ts.dropWhile Token.isComment

/-- Skipping comments never makes the list longer. -/
theorem length_skipComments_le (ts : List Token) : (skipComments ts).length ≤ ts.length :=
  (List.dropWhile_sublist _).length_le

/-- After the comments comes no comment. -/
theorem not_isComment_of_skipComments {ts rest : List Token} {t : Token} (h : skipComments ts = t :: rest) :
    t.isComment = false := by
  have := List.head?_dropWhile_not Token.isComment ts
  simp only [skipComments] at h
  simpa [h] using this

end TinyLisp

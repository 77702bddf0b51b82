import TinyLisp.Token.Basic

/-!
# From text to tokens

A text is cut into lexemes with gaps between them. The character that a lexeme starts with decides where it ends, so the
lexer takes one lexeme at a time from the front of the text. `lexeme_ne_nil` says that a lexeme is never empty, and
`lexeme_append` that a lexeme and what follows it make up the text they were taken from: together they bound the recursion
of `tokenize` and say that it loses nothing but gaps.
-/

namespace TinyLisp.Lexer

/-- Whether a character is a lexeme of its own where a lexeme starts. -/
def standsAlone (c : Char) : Bool :=
  c ∈ ['[', ']', '{', '}', '(', ')', '\x27', '\x60', '~', '^', '@']

/-- Whether a character ends the bare lexeme before it. -/
def endsBare (c : Char) : Bool :=
  isGap c || c ∈ ['[', ']', '{', '}', '(', ')', '\x27', '\x60', '"', ';']

/-- What follows an opening quote up to the end of the string lexeme, and the text after it. A backslash takes the character
after it along, unless that is a newline or there is none: then the lexeme ends before the backslash. The first quote that is
not taken along ends the lexeme and belongs to it. -/
def splitString : List Char → List Char × List Char
  | [] => ([], [])
  | ['\\'] => ([], ['\\'])
  | '\\' :: e :: rest =>
    if e = '\n' then ([], '\\' :: e :: rest)
    else ('\\' :: e :: (splitString rest).1, (splitString rest).2)
  | c :: rest => if c = '"' then ([c], rest) else (c :: (splitString rest).1, (splitString rest).2)

/-- The lexeme that starts with the given character, which is no gap, and the text after it, from the text after that
character. -/
def lexeme (c : Char) (rest : List Char) : List Char × List Char :=
  if c = '~' ∧ rest.head? = some '@' then (['~', '@'], rest.tail)
  else if standsAlone c then ([c], rest)
  else if c = '"' then (c :: (splitString rest).1, (splitString rest).2)
  else if c = ';' then (c :: rest.takeWhile (· ≠ '\n'), rest.dropWhile (· ≠ '\n'))
  else (c :: rest.takeWhile (!endsBare ·), rest.dropWhile (!endsBare ·))

/-- A string lexeme and the text after it make up the text they come from. -/
theorem splitString_append (cs : List Char) : (splitString cs).1 ++ (splitString cs).2 = cs := by
  fun_induction splitString cs <;> simp_all

/-- A lexeme and the text after it make up the text they come from. -/
theorem lexeme_append (c : Char) (rest : List Char) : (lexeme c rest).1 ++ (lexeme c rest).2 = c :: rest := by
  unfold lexeme
  split
  · next h =>
    obtain ⟨rfl, h⟩ := h
    cases rest <;> simp_all
  · split
    · rfl
    · split
      · simp [splitString_append]
      · split <;> simp [List.takeWhile_append_dropWhile]

/-- A lexeme is not empty. -/
theorem lexeme_ne_nil (c : Char) (rest : List Char) : (lexeme c rest).1 ≠ [] := by
  unfold lexeme
  split
  · simp
  · split
    · simp
    · split
      · simp
      · split <;> simp

/-- The text after a lexeme is no longer than the text after its first character. -/
theorem length_lexeme_le (c : Char) (rest : List Char) : (lexeme c rest).2.length ≤ rest.length := by
  have happ := congrArg List.length (lexeme_append c rest)
  have hpos := List.length_pos_iff.mpr (lexeme_ne_nil c rest)
  simp only [List.length_append, List.length_cons] at happ
  omega

/-- The tokens of a text that starts at the given offset. -/
def tokens (offset : Nat) : List Char → List Token
  | [] => []
  | c :: rest =>
    if isGap c then tokens (offset + c.utf8Size) rest
    else
      ⟨String.ofList (lexeme c rest).1, offset⟩ :: tokens (offset + width (lexeme c rest).1) (lexeme c rest).2
  termination_by cs => cs.length
  decreasing_by
    · simp
    · exact Nat.lt_succ_of_le (length_lexeme_le c rest)

end TinyLisp.Lexer

namespace TinyLisp

/-- The tokens of a source text in order, comments included. -/
def tokenize (source : String) : List Token := Lexer.tokens 0 source.toList

end TinyLisp

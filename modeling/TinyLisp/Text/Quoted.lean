/-!
# Quoted text

A string literal is a text between double quotes in which a backslash, a newline and a double quote are written as the
escapes `\\`, `\n` and `\"`. `decode` reads what stands between the quotes and `encode` writes a whole literal;
`decode_escape` says that the first undoes the second. Reading is the wider of the two: a newline or a quote that stands for
itself between the quotes is read as itself.
-/

namespace TinyLisp.Quoted

/-- The character that an escape stands for, from what follows its backslash. -/
def unescape? : Char → Option Char
  | '\\' => some '\\'
  | 'n' => some '\n'
  | '"' => some '"'
  | _ => none

/-- The text that the inside of a literal stands for; otherwise the character that spoils it, which is what follows the
backslash of an unknown escape, or the backslash itself when the text ends with it. -/
def decode : List Char → Except Char (List Char)
  | [] => .ok []
  | '\\' :: [] => .error '\\'
  | '\\' :: e :: rest =>
    match unescape? e with
    | some c => (decode rest).map (c :: ·)
    | none => .error e
  | c :: rest => (decode rest).map (c :: ·)

/-- How one character is written inside a literal. -/
def escape : Char → List Char
  | '"' => ['\\', '"']
  | '\n' => ['\\', 'n']
  | '\\' => ['\\', '\\']
  | c => [c]

/-- The literal of a text, its quotes included. -/
def encode (cs : List Char) : List Char := '"' :: (cs.flatMap escape ++ ['"'])

/-- The number of backslashes at the end of a text. -/
def trailingBackslashes (cs : List Char) : Nat := (cs.reverse.takeWhile (· = '\\')).length

/-- What stands between the quotes of a whole literal: a text that starts with a quote and ends with another one that is not
part of an escape, so the run of backslashes before it has even length. -/
def inside? : List Char → Option (List Char)
  | '"' :: body =>
    if body.getLast? = some '"' ∧ trailingBackslashes body.dropLast % 2 = 0 then some body.dropLast else none
  | _ => none

/-- Whether a text is a whole literal. -/
def isComplete (cs : List Char) : Bool := (inside? cs).isSome

/-- A plain character is read as itself. -/
theorem decode_cons_of_ne {c : Char} (h : c ≠ '\\') (rest : List Char) :
    decode (c :: rest) = (decode rest).map (c :: ·) := by
  rw [decode.eq_4] <;> simp_all

/-- What is written for a character is read as that character. -/
theorem decode_escape_append (c : Char) (rest : List Char) :
    decode (escape c ++ rest) = (decode rest).map (c :: ·) := by
  unfold escape
  split <;> simp_all [decode, unescape?, decode_cons_of_ne]

/-- What stands between the quotes of a written literal is read as the text it was written for. -/
theorem decode_escape (cs : List Char) : decode (cs.flatMap escape) = .ok cs := by
  induction cs with
  | nil => rfl
  | cons c cs ih => simp [List.flatMap_cons, decode_escape_append, ih, Except.map]

end TinyLisp.Quoted

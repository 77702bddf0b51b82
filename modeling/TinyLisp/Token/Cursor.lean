import TinyLisp.Token.Basic

/-!
# Cursors

A cursor is a position in a list of tokens: the number of steps made and the tokens not passed yet. A cursor may step past
the last token, and goes on counting there.
-/

namespace TinyLisp

/-- A position in a list of tokens. -/
structure Cursor where
  index : Nat
  ahead : List Token
  deriving DecidableEq, Repr

namespace Cursor

/-- The cursor at the first token. -/
def start (ts : List Token) : Cursor := ⟨0, ts⟩

/-- The token under the cursor, if it has not passed the last one. -/
def current? (c : Cursor) : Option Token := c.ahead.head?

/-- The cursor one step further on. -/
def next (c : Cursor) : Cursor := ⟨c.index + 1, c.ahead.tail⟩

/-- The cursor that has the given tokens ahead, which are the last ones of those ahead of this cursor. -/
def upTo (c : Cursor) (rest : List Token) : Cursor := ⟨c.index + (c.ahead.length - rest.length), rest⟩

/-- The cursor past the comments under it. -/
def skipComments (c : Cursor) : Cursor := c.upTo (TinyLisp.skipComments c.ahead)

/-- The cursor after the given number of steps. -/
def advance (c : Cursor) : Nat → Cursor
  | 0 => c
  | n + 1 => c.next.advance n

end Cursor

end TinyLisp

/-!
# Shapes of collections

A collection is a list, a vector or a map, and its shape decides the pair of delimiters around it. `ofOpening?_opening` and
`ofClosing?_closing` say that a delimiter names its shape.
-/

namespace TinyLisp

/-- The two shapes of a sequence. -/
inductive SeqKind where
  | list
  | vector
  deriving DecidableEq, Repr

/-- The three shapes of a collection. -/
inductive Shape where
  | seq (kind : SeqKind)
  | map
  deriving DecidableEq, Repr

namespace Shape

/-- The delimiter that opens a collection. -/
def opening : Shape → Char
  | .seq .list => '('
  | .seq .vector => '['
  | .map => '{'

/-- The delimiter that closes a collection. -/
def closing : Shape → Char
  | .seq .list => ')'
  | .seq .vector => ']'
  | .map => '}'

/-- The shape that a text opens, if it is an opening delimiter. -/
def ofOpening? : List Char → Option Shape
  | ['('] => some (.seq .list)
  | ['['] => some (.seq .vector)
  | ['{'] => some .map
  | _ => none

/-- The shape that a text closes, if it is a closing delimiter. -/
def ofClosing? : List Char → Option Shape
  | [')'] => some (.seq .list)
  | [']'] => some (.seq .vector)
  | ['}'] => some .map
  | _ => none

/-- An opening delimiter opens its shape. -/
theorem ofOpening?_opening (s : Shape) : ofOpening? [s.opening] = some s := by
  rcases s with (_ | _) | _ <;> rfl

/-- A closing delimiter closes its shape. -/
theorem ofClosing?_closing (s : Shape) : ofClosing? [s.closing] = some s := by
  rcases s with (_ | _) | _ <;> rfl

/-- A text that opens a shape is the delimiter of that shape. -/
theorem eq_of_ofOpening? {cs : List Char} {s : Shape} (h : ofOpening? cs = some s) : cs = [s.opening] := by
  unfold ofOpening? at h
  split at h <;> cases h <;> rfl

/-- A text that closes a shape is the delimiter of that shape. -/
theorem eq_of_ofClosing? {cs : List Char} {s : Shape} (h : ofClosing? cs = some s) : cs = [s.closing] := by
  unfold ofClosing? at h
  split at h <;> cases h <;> rfl

/-- The members of a collection between its delimiters, with one blank between two of them. -/
def enclose (s : Shape) (members : List (List Char)) : List Char :=
  s.opening :: ([' '].intercalate members ++ [s.closing])

end Shape

end TinyLisp

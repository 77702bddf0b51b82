import TinyLisp.Form.Map
import TinyLisp.Token.Cursor
import TinyLisp.Token.Lexer
import TinyLisp.Word

/-!
# How a form is read

A form is read from the front of a list of tokens by recursive descent: an atom is one token, a collection is an opening
delimiter, its members and the delimiter that closes it. Comments are skipped wherever a token is looked at. The depth counts
the collections that are open, and no more of them may be open than the limit says. Every function that takes tokens returns
those it left, which are fewer, and that bounds the recursion.

A fault is reported where it is met: a key is checked as soon as it is read, before anything after it.
-/

namespace TinyLisp

/-- The form of a token that is no delimiter. The two boolean names come first, then numerals, keywords, string literals; any
other text is a symbol. -/
def readAtom (t : Token) : Except ReadError Form :=
  if t.text = "true" then .ok (.bool true)
  else if t.text = "false" then .ok (.bool false)
  else
    match Numeral.parse? t.chars with
    | some i =>
      match toWord? i with
      | some w => .ok (.int w (some t))
      | none => .error (.integerOutOfRange t.text)
    | none =>
      match t.chars with
      | ':' :: name => .ok (.keyword ⟨.shared, String.ofList name⟩ (some t))
      | '"' :: _ =>
        match Quoted.inside? t.chars with
        | none => .error (.unbalancedString t.offset)
        | some inside =>
          match Quoted.decode inside with
          | .ok cs => .ok (.str (String.ofList cs) (some t))
          | .error escape => .error (.unrecognizedEscape escape)
      | _ => .ok (.symbol t.text (some t))

/-- Fewer tokens than the given ones. -/
abbrev Fewer (ts : List Token) : Type := { rest : List Token // rest.length < ts.length }

/-- What stands next in an open collection: its closing delimiter and the tokens after it, or a member. The end of the input
and the delimiter of another collection are faults. -/
def nextInside (shape : Shape) (ts : List Token) : Except ReadError (Option (Token × Fewer ts)) :=
  match h : skipComments ts with
  | [] => .error (.mismatchedDelimiter shape none)
  | t :: rest =>
    match Shape.ofClosing? t.chars with
    | none => .ok none
    | some closed =>
      if closed = shape then
        .ok (some (t, ⟨rest, by have := length_skipComments_le ts; simp only [h, List.length_cons] at this; omega⟩))
      else .error (.mismatchedDelimiter shape (some t))

mutual

/-- The form at the front of the tokens, inside of as many collections as the depth says, and the tokens after it. -/
def readForm (limit depth : Nat) (ts : List Token) : Except ReadError (Form × Fewer ts) :=
  match h : skipComments ts with
  | [] => .error .emptyInput
  | t :: rest =>
    have fewer : rest.length < ts.length := by
      have := length_skipComments_le ts
      simp only [h, List.length_cons] at this
      omega
    match Shape.ofOpening? t.chars with
    | some (.seq kind) =>
      if limit ≤ depth then .error (.tooDeep limit)
      else
        match readMembers limit (depth + 1) kind rest with
        | .error e => .error e
        | .ok (members, close, after) => .ok (.seq kind ⟨some t, some close⟩ members, ⟨after, Nat.lt_trans after.2 fewer⟩)
    | some .map =>
      if limit ≤ depth then .error (.tooDeep limit)
      else
        match readPairs limit (depth + 1) rest with
        | .error e => .error e
        | .ok (pairs, close, after) => .ok (.map ⟨some t, some close⟩ pairs, ⟨after, Nat.lt_trans after.2 fewer⟩)
    | none =>
      if (Shape.ofClosing? t.chars).isSome then .error (.unexpectedDelimiter t)
      else
        match readAtom t with
        | .error e => .error e
        | .ok f => .ok (f, ⟨rest, fewer⟩)
  termination_by (ts.length, 0)

/-- The members of an open sequence, the delimiter that closes it and the tokens after it. -/
def readMembers (limit depth : Nat) (kind : SeqKind) (ts : List Token) :
    Except ReadError (List Form × Token × Fewer ts) :=
  match nextInside (.seq kind) ts with
  | .error e => .error e
  | .ok (some (close, after)) => .ok ([], close, after)
  | .ok none =>
    match readForm limit depth ts with
    | .error e => .error e
    | .ok (member, ⟨rest, fewer⟩) =>
      match readMembers limit depth kind rest with
      | .error e => .error e
      | .ok (members, close, after) => .ok (member :: members, close, ⟨after, Nat.lt_trans after.2 fewer⟩)
  termination_by (ts.length, 1)

/-- The keys and values of an open map, the delimiter that closes it and the tokens after it. -/
def readPairs (limit depth : Nat) (ts : List Token) : Except ReadError (List (Key × Form) × Token × Fewer ts) :=
  match nextInside .map ts with
  | .error e => .error e
  | .ok (some (close, after)) => .ok ([], close, after)
  | .ok none =>
    match readForm limit depth ts with
    | .error e => .error e
    | .ok (form, ⟨rest, fewer⟩) =>
      match form.toKey with
      | .error e => .error e
      | .ok key =>
        match nextInside .map rest with
        | .error e => .error e
        | .ok (some _) => .error key.unpaired
        | .ok none =>
          match readForm limit depth rest with
          | .error e => .error e
          | .ok (value, ⟨rest', fewer'⟩) =>
            match readPairs limit depth rest' with
            | .error e => .error e
            | .ok (pairs, close, after) =>
              .ok ((key, value) :: pairs, close, ⟨after, Nat.lt_trans (Nat.lt_trans after.2 fewer') fewer⟩)
  termination_by (ts.length, 1)

end

/-- How many collections may be open at once where nothing else is asked for. -/
def defaultNesting : Nat := 256

/-- The form under a cursor and the cursor after it. -/
def Cursor.read (limit : Nat) (c : Cursor) : Except ReadError (Form × Cursor) :=
  match readForm limit 0 c.ahead with
  | .error e => .error e
  | .ok (f, rest) => .ok (f, c.upTo rest)

/-- The one form of a list of tokens; only comments may follow it. -/
def readTokens (limit : Nat) (ts : List Token) : Except ReadError Form :=
  match readForm limit 0 ts with
  | .error e => .error e
  | .ok (f, rest) =>
    match skipComments rest with
    | [] => .ok f
    | t :: _ => .error (.trailingInput t)

/-- The one form of a source text, with at most as many collections open at once as the limit says. -/
def readText (limit : Nat) (source : String) : Except ReadError Form := readTokens limit (tokenize source)

/-- The forms under a cursor one after the other, each with the cursor after it, up to the fault that ends them. -/
def Cursor.readAll (limit : Nat) (c : Cursor) : List (Form × Cursor) × ReadError :=
  match readForm limit 0 c.ahead with
  | .error e => ([], e)
  | .ok (f, rest) =>
    have := rest.2
    let more := readAll limit (c.upTo rest)
    ((f, c.upTo rest) :: more.1, more.2)
  termination_by c.ahead.length

end TinyLisp

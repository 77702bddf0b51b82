import Mathlib.Data.List.Basic
import TinyLisp.Proofs.Prefixes

/-!
# The source that a form keeps

A form that was read keeps the tokens it was read from: an atom its own, a collection its two delimiters. `Form.pieces` lists
them in the order of the text, and has a boolean, which keeps no token, stand for itself. `read_keeps_source` says that nothing
is lost, doubled or moved: the pieces are the tokens that were read, comments left out.
-/

namespace TinyLisp

/-! ## Pieces -/

/-- What a form shows of one token of its source: the token, or the boolean that it was read as. -/
inductive Piece where
  | token (t : Token)
  | bool (value : Bool)
  deriving DecidableEq, Repr

/-- The piece of a token that may be missing. -/
def Piece.ofToken? (t : Option Token) : List Piece := t.toList.map .token

/-- The piece of a token that was read: the two boolean names are not kept as tokens. -/
def Token.piece (t : Token) : Piece :=
  if t.text = "true" then .bool true else if t.text = "false" then .bool false else .token t

mutual

/-- The pieces of a form from left to right: of an atom its token, of a collection its opening delimiter, the pieces of its
members, values that were replaced included, and its closing delimiter. -/
def Form.pieces : Form → List Piece
  | .int _ token => Piece.ofToken? token
  | .symbol _ token => Piece.ofToken? token
  | .str _ token => Piece.ofToken? token
  | .keyword _ token => Piece.ofToken? token
  | .bool value => [.bool value]
  | .seq _ delims members => Piece.ofToken? delims.opening ++ (piecesOfMembers members ++ Piece.ofToken? delims.closing)
  | .map delims pairs => Piece.ofToken? delims.opening ++ (piecesOfPairs pairs ++ Piece.ofToken? delims.closing)
  | .builtin _ => []

/-- The pieces of the members of a sequence. -/
def piecesOfMembers : List Form → List Piece
  | [] => []
  | m :: ms => m.pieces ++ piecesOfMembers ms

/-- The pieces of the keys and values of a map. -/
def piecesOfPairs : List (Key × Form) → List Piece
  | [] => []
  | (k, v) :: rest => Piece.ofToken? k.token ++ (v.pieces ++ piecesOfPairs rest)

end

/-- The pieces of members are those of one after the other. -/
theorem piecesOfMembers_eq_flatMap (ms : List Form) : piecesOfMembers ms = ms.flatMap Form.pieces := by
  induction ms with
  | nil => rfl
  | cons m ms ih => rw [piecesOfMembers, ih, List.flatMap_cons]

/-- The form of a key shows the token of the key. -/
theorem pieces_toForm (k : Key) : k.toForm.pieces = Piece.ofToken? k.token := by cases k <;> rfl

/-- The pieces of keys and values are those of the alternating list of them. -/
theorem piecesOfPairs_eq_flatMap (ps : List (Key × Form)) : piecesOfPairs ps = (alternate ps).flatMap Form.pieces := by
  induction ps with
  | nil => rfl
  | cons p ps ih =>
    rw [piecesOfPairs, ih, alternate_cons, List.flatMap_cons, List.flatMap_cons, pieces_toForm]

/-! ## Pieces of what is derived -/

/-- A token that starts with neither of the first letters of the boolean names shows itself. -/
theorem Token.piece_eq_token {t : Token} {c : Char} {rest : List Char} (h : t.chars = c :: rest) (ht : c ≠ 't')
    (hf : c ≠ 'f') : t.piece = .token t := by
  obtain ⟨hyes, hno⟩ := Token.text_ne_bool h ht hf
  rw [Token.piece, if_neg hyes, if_neg hno]

/-- A delimiter shows itself. -/
theorem Token.piece_of_isDelimiter {t : Token} (h : Shape.IsDelimiter t.chars) : t.piece = .token t := by
  obtain ⟨(_ | _) | _, hs | hs⟩ := h <;> exact Token.piece_eq_token hs (by decide) (by decide)

/-- An atom shows the token that stands for it. -/
theorem Atom.pieces {t : Token} {f : Form} (h : Atom t f) : f.pieces = [t.piece] := by
  cases h with
  | yes h => simp [Form.pieces, Token.piece, h]
  | no h => simp [Form.pieces, Token.piece, h]
  | int h =>
    obtain ⟨c, rest, hcs, hc⟩ := h.head
    have ht : c ≠ 't' := by rintro rfl; simp at hc
    have hf : c ≠ 'f' := by rintro rfl; simp at hc
    rw [Token.piece_eq_token hcs ht hf]
    rfl
  | keyword h =>
    rw [Token.piece_eq_token h (by decide) (by decide)]
    rfl
  | str h =>
    rw [Token.piece_eq_token h (by decide) (by decide)]
    rfl
  | symbol hyes hno =>
    rw [Token.piece, if_neg hyes, if_neg hno]
    rfl

/-- A form shows the tokens that it derives from. -/
theorem Derives.pieces {ts : List Token} {f : Form} (h : Derives ts f) : f.pieces = ts.map Token.piece := by
  induction h with
  | atom h => exact h.pieces
  | @seq kind o c phrases ho hc hm ih =>
    have hopen : o.piece = .token o := Token.piece_of_isDelimiter ⟨_, .inl ho⟩
    have hclose : c.piece = .token c := Token.piece_of_isDelimiter ⟨_, .inr hc⟩
    have hmembers : (phrases.map (·.2)).flatMap Form.pieces = (phrases.flatMap (·.1)).map Token.piece := by
      rw [List.flatMap_map, List.map_flatMap]
      exact List.flatMap_congr ih
    rw [Form.pieces, piecesOfMembers_eq_flatMap, hmembers, List.map_cons, List.map_append, hopen, List.map_singleton, hclose]
    rfl
  | @map o c phrases ho hc hk hv ihk ihv =>
    have hopen : o.piece = .token o := Token.piece_of_isDelimiter ⟨_, .inl ho⟩
    have hclose : c.piece = .token c := Token.piece_of_isDelimiter ⟨_, .inr hc⟩
    have hpairs : piecesOfPairs (phrases.map PairPhrase.pair) = (phrases.flatMap PairPhrase.tokens).map Token.piece := by
      rw [piecesOfPairs_eq_flatMap, alternate, List.flatMap_map, List.flatMap_assoc, List.map_flatMap]
      refine List.flatMap_congr fun p hp => ?_
      simp [PairPhrase.pair, PairPhrase.tokens, ihk p hp, ihv p hp]
    rw [Form.pieces, hpairs, List.map_cons, List.map_append, hopen, List.map_singleton, hclose]
    rfl

/-! ## Reading keeps the source -/

/-- Steps of a cursor are counted, and pass one token each. -/
theorem Cursor.advance_eq (c : Cursor) (n : Nat) : c.advance n = ⟨c.index + n, c.ahead.drop n⟩ := by
  induction n generalizing c with
  | zero => rfl
  | succ n ih =>
    have hindex : c.index + 1 + n = c.index + (n + 1) := by omega
    rw [Cursor.advance, ih, Cursor.next, hindex, List.drop_tail]

/-- A form that is read from a place among the tokens ends at a later place among them, which the cursor after it stands at. Its
pieces are the tokens in between that are no comments. -/
theorem read_keeps_source {limit i : Nat} {ts : List Token} {f : Form} {c : Cursor}
    (h : ((Cursor.start ts).advance i).read limit = .ok (f, c)) :
    i < c.index ∧ c.index ≤ ts.length ∧ c = (Cursor.start ts).advance c.index ∧
      f.pieces = (content ((ts.drop i).take (c.index - i))).map Token.piece := by
  obtain ⟨rest, hscan, rfl⟩ := Cursor.read_eq_ok_iff.mp h
  simp only [Cursor.advance_eq, Cursor.start, Cursor.upTo, Nat.zero_add] at hscan ⊢
  obtain ⟨us, t, hts, ht, hd, -⟩ := Pass.scan_spells .nil hscan
  have htaken : ts.drop i = (us ++ [t]) ++ rest := by rw [hts, List.append_assoc, List.singleton_append]
  have htotal : ts.length - i = (us ++ [t]).length + rest.length := by
    rw [← List.length_drop, htaken, List.length_append]
  have hpos : (us ++ [t]).length = us.length + 1 := by simp
  have hlen : (ts.drop i).length - rest.length = (us ++ [t]).length := by
    rw [List.length_drop]
    omega
  rw [hlen]
  refine ⟨by omega, by omega, ?_, ?_⟩
  · have hrest : ts.drop (i + (us ++ [t]).length) = rest := by rw [← List.drop_drop, htaken, List.drop_left]
    rw [hrest]
  · have hcontent : content (us ++ [t]) = content us ++ [t] := by
      rw [content_append, content_cons ht]
      rfl
    rw [Nat.add_sub_cancel_left, htaken, List.take_left, hcontent]
    exact hd.pieces

/-- A map with a comment in it and a key that comes twice keeps every token but the comment and the boolean's, and the cursor
stands after its closing delimiter. -/
theorem read_keeps_source_repeated_key :
    let ts : List Token := [⟨"x", 9⟩, ⟨"\x7b", 0⟩, ⟨":a", 1⟩, ⟨"true", 4⟩, ⟨"; b", 4⟩, ⟨":a", 7⟩, ⟨"~", 9⟩, ⟨"\x7d", 3⟩, ⟨"y", 0⟩]
    ∃ f, ((Cursor.start ts).advance 1).read 1 = .ok (f, (Cursor.start ts).advance 8) ∧
      f.pieces = [.token ⟨"\x7b", 0⟩, .token ⟨":a", 1⟩, .bool true, .token ⟨":a", 7⟩, .token ⟨"~", 9⟩, .token ⟨"\x7d", 3⟩] := by
  intro ts
  have hread : ∃ f, ((Cursor.start ts).advance 1).read 1 = .ok (f, (Cursor.start ts).advance 8) :=
    ⟨_, Cursor.read_eq_ok_iff.mpr ⟨[⟨"y", 0⟩], rfl, rfl⟩⟩
  obtain ⟨f, hf⟩ := hread
  exact ⟨f, hf, (read_keeps_source hf).2.2.2⟩

end TinyLisp

import TinyLisp.Form.Reader
import TinyLisp.Proofs.Parts

/-!
# Which texts are atoms

An atom is a single token. What it stands for is said here by the shape of its text: one of the boolean names, digits with or
without a minus sign, a colon and a name, a literal between quotes, or any other text that is no delimiter. `atom_iff` says that
the reader agrees. `AtomFault` says in the same way what is wrong with a token that stands for nothing, and
`readAtom_eq_error_iff` that this is what the reader reports.
-/

namespace TinyLisp

/-! ## Numerals -/

/-- The integer that a text of digits, one at least, stands for, with or without a minus sign before them. -/
inductive Numeral.Denotes : List Char → Int → Prop where
  | plain {ds : List Char} (hne : ds ≠ []) (hd : ∀ d ∈ ds, d.isDigit = true) :
    Denotes ds (Nat.ofDigitChars 10 ds 0 : Nat)
  | minus {ds : List Char} (hne : ds ≠ []) (hd : ∀ d ∈ ds, d.isDigit = true) :
    Denotes ('-' :: ds) (-(Nat.ofDigitChars 10 ds 0 : Nat))

/-- A text of digits is not empty and has digits only. -/
theorem Numeral.isDigits_iff {ds : List Char} : isDigits ds = true ↔ ds ≠ [] ∧ ∀ d ∈ ds, d.isDigit = true := by
  simp [isDigits]

/-- A text is read as the integer that it stands for. -/
theorem Numeral.parse?_eq_some_iff {cs : List Char} {i : Int} : parse? cs = some i ↔ Denotes cs i := by
  constructor
  · intro h
    unfold parse? at h
    split at h
    · next ds =>
      split at h
      · next hd =>
        cases h
        exact .minus (isDigits_iff.mp hd).1 (isDigits_iff.mp hd).2
      · cases h
    · next ds _ =>
      split at h
      · next hd =>
        cases h
        exact .plain (isDigits_iff.mp hd).1 (isDigits_iff.mp hd).2
      · cases h
  · rintro (⟨hne, hd⟩ | ⟨hne, hd⟩)
    · exact parse?_of_isDigits (isDigits_iff.mpr ⟨hne, hd⟩)
    · simp [parse?, isDigits_iff.mpr ⟨hne, hd⟩]

/-! ## Literals -/

/-- A character that is a backslash neither before another character nor at the end is none. -/
theorem ne_backslash_of_cases {c : Char} {rest : List Char} (hn : c = '\\' → rest = [] → False)
    (hc : ∀ e tail, c = '\\' → rest = e :: tail → False) : c ≠ '\\' := by
  rintro rfl
  cases rest with
  | nil => exact hn rfl rfl
  | cons e tail => exact hc e tail rfl rfl

namespace Quoted

/-- What stands between the quotes of a literal, and the text that it stands for. A backslash stands only in the three
escapes. -/
inductive Inside : List Char → List Char → Prop where
  | nil : Inside [] []
  | plain {c : Char} {cs vs : List Char} (hc : c ≠ '\\') (h : Inside cs vs) : Inside (c :: cs) (c :: vs)
  | backslash {cs vs : List Char} (h : Inside cs vs) : Inside ('\\' :: '\\' :: cs) ('\\' :: vs)
  | newline {cs vs : List Char} (h : Inside cs vs) : Inside ('\\' :: 'n' :: cs) ('\n' :: vs)
  | quote {cs vs : List Char} (h : Inside cs vs) : Inside ('\\' :: '"' :: cs) ('"' :: vs)

/-- What an escape stands for is put before the text that the inside of a literal stands for. -/
theorem Inside.pair {e c : Char} {cs vs : List Char} (he : unescape? e = some c) (h : Inside cs vs) :
    Inside ('\\' :: e :: cs) (c :: vs) := by
  unfold unescape? at he
  split at he <;> cases he
  · exact .backslash h
  · exact .newline h
  · exact .quote h

/-- Every text is the inside of a literal, or is one up to a backslash that starts no escape. -/
theorem exists_inside (cs : List Char) :
    ∃ front vs rest, Inside front vs ∧ cs = front ++ rest ∧
      (rest = [] ∨ rest = ['\\'] ∨ ∃ e more, unescape? e = none ∧ rest = '\\' :: e :: more) := by
  fun_induction decode cs with
  | case1 => exact ⟨[], [], [], .nil, rfl, .inl rfl⟩
  | case2 => exact ⟨[], [], ['\\'], .nil, rfl, .inr (.inl rfl)⟩
  | case3 e rest c he ih =>
    obtain ⟨front, vs, rest', hfront, rfl, hrest⟩ := ih
    exact ⟨'\\' :: e :: front, c :: vs, rest', .pair he hfront, rfl, hrest⟩
  | case4 e rest he => exact ⟨[], [], '\\' :: e :: rest, .nil, rfl, .inr (.inr ⟨e, rest, he, rfl⟩)⟩
  | case5 c rest hn hc ih =>
    obtain ⟨front, vs, rest', hfront, rfl, hrest⟩ := ih
    exact ⟨c :: front, c :: vs, rest', .plain (ne_backslash_of_cases hn hc) hfront, rfl, hrest⟩

/-- The inside of a literal at the front of a text is read as what it stands for. -/
theorem Inside.decode_append {cs vs : List Char} (h : Inside cs vs) (rest : List Char) :
    decode (cs ++ rest) = (decode rest).map (vs ++ ·) := by
  have hmap : ∀ (c : Char) (us : List Char) (r : Except Char (List Char)),
      (r.map (us ++ ·)).map (c :: ·) = r.map (c :: us ++ ·) := by
    intro c us r
    cases r <;> rfl
  induction h with
  | nil => cases h : decode rest <;> simp [h, Except.map]
  | plain hc _ ih => rw [List.cons_append, decode_cons_of_ne hc, ih, hmap]
  | backslash _ ih | newline _ ih | quote _ ih =>
    rw [List.cons_append, List.cons_append, decode, ih]
    exact hmap _ _ _

/-- The inside of a literal is read as the text that it stands for. -/
theorem decode_eq_ok_iff {cs vs : List Char} : decode cs = .ok vs ↔ Inside cs vs := by
  constructor
  · intro h
    obtain ⟨front, us, rest, hfront, rfl, hrest⟩ := exists_inside cs
    rw [hfront.decode_append] at h
    rcases hrest with rfl | rfl | ⟨e, more, he, rfl⟩
    · cases h
      simpa using hfront
    · cases h
    · simp [decode, he, Except.map] at h
  · intro h
    simpa [decode, Except.map] using h.decode_append []

/-- What reading complains about is the character after the first backslash that starts no escape, or that backslash if it ends
the text. -/
theorem decode_eq_error_iff {cs : List Char} {c : Char} :
    decode cs = .error c ↔ ∃ front vs, Inside front vs ∧
      ((unescape? c = none ∧ ∃ rest, cs = front ++ '\\' :: c :: rest) ∨ (c = '\\' ∧ cs = front ++ ['\\'])) := by
  constructor
  · intro h
    obtain ⟨front, us, rest, hfront, rfl, hrest⟩ := exists_inside cs
    rw [hfront.decode_append] at h
    refine ⟨front, us, hfront, ?_⟩
    rcases hrest with rfl | rfl | ⟨e, more, he, rfl⟩
    · cases h
    · cases h
      exact .inr ⟨rfl, rfl⟩
    · simp only [decode, he, Except.map, Except.error.injEq] at h
      subst h
      exact .inl ⟨he, more, rfl⟩
  · rintro ⟨front, us, hfront, ⟨hc, rest, rfl⟩ | ⟨rfl, rfl⟩⟩
    · rw [hfront.decode_append]
      simp [decode, hc, Except.map]
    · rw [hfront.decode_append]
      rfl

/-- A pair of a backslash and another character at the front does not change whether the backslashes at the end are even in
number. -/
theorem trailingBackslashes_pair (e : Char) (cs : List Char) :
    trailingBackslashes ('\\' :: e :: cs) % 2 = trailingBackslashes cs % 2 := by
  unfold trailingBackslashes
  rw [List.reverse_cons, List.reverse_cons, List.append_assoc, List.takeWhile_append]
  split
  · next h =>
    rw [h]
    by_cases he : e = '\\' <;> simp [he]
  · rfl

/-- Nor does any other character at the front. -/
theorem trailingBackslashes_cons_of_ne {c : Char} (h : c ≠ '\\') (cs : List Char) :
    trailingBackslashes (c :: cs) = trailingBackslashes cs := by
  unfold trailingBackslashes
  rw [List.reverse_cons, List.takeWhile_append]
  split <;> simp_all

/-- The inside of a literal at the front does not change it either. -/
theorem Inside.trailingBackslashes_append {cs vs : List Char} (h : Inside cs vs) (rest : List Char) :
    trailingBackslashes (cs ++ rest) % 2 = trailingBackslashes rest % 2 := by
  induction h with
  | nil => rfl
  | plain hc _ ih => rw [List.cons_append, trailingBackslashes_cons_of_ne hc, ih]
  | backslash _ ih | newline _ ih | quote _ ih =>
    rw [List.cons_append, List.cons_append, trailingBackslashes_pair, ih]

/-- The inside of a literal ends with an even number of backslashes, so the closing quote belongs to no escape. -/
theorem Inside.even {cs vs : List Char} (h : Inside cs vs) : trailingBackslashes cs % 2 = 0 := by
  have heven := h.trailingBackslashes_append []
  rw [List.append_nil] at heven
  exact heven

/-- A whole literal is its inside between two quotes, where the closing one belongs to no escape. -/
theorem inside?_eq_some_iff {cs body : List Char} :
    inside? cs = some body ↔ cs = '"' :: (body ++ ['"']) ∧ trailingBackslashes body % 2 = 0 := by
  constructor
  · intro h
    unfold inside? at h
    split at h
    · next rest =>
      split at h
      · next hr =>
        cases h
        obtain ⟨hl, he⟩ := hr
        obtain ⟨ys, rfl⟩ := List.getLast?_eq_some_iff.mp hl
        rw [List.dropLast_concat] at he ⊢
        exact ⟨rfl, he⟩
      · cases h
    · cases h
  · rintro ⟨rfl, h⟩
    simp [inside?, h]

/-- A character that makes no escape is none of the three that do. -/
theorem unescape?_eq_none_iff {c : Char} : unescape? c = none ↔ c ∉ ['\\', 'n', '"'] := by
  unfold unescape?
  split <;> simp_all

end Quoted

/-! ## Atoms -/

/-- One of the six delimiters. -/
def Shape.IsDelimiter (cs : List Char) : Prop := ∃ s : Shape, cs = [s.opening] ∨ cs = [s.closing]

/-- A text is no delimiter exactly when it opens and closes nothing. -/
theorem Shape.not_isDelimiter_iff {cs : List Char} : ¬IsDelimiter cs ↔ ofOpening? cs = none ∧ ofClosing? cs = none := by
  constructor
  · intro h
    refine ⟨?_, ?_⟩
    · cases ho : ofOpening? cs with
      | none => rfl
      | some s => exact absurd ⟨s, .inl (eq_of_ofOpening? ho)⟩ h
    · cases hc : ofClosing? cs with
      | none => rfl
      | some s => exact absurd ⟨s, .inr (eq_of_ofClosing? hc)⟩ h
  · rintro ⟨ho, hc⟩ ⟨s, rfl | rfl⟩
    · rw [ofOpening?_opening] at ho
      cases ho
    · rw [ofClosing?_closing] at hc
      cases hc

/-- The form that a token stands for by itself. A text that has none of the other shapes is the name of a symbol. -/
inductive Atom (t : Token) : Form → Prop where
  | yes (h : t.text = "true") : Atom t (.bool true)
  | no (h : t.text = "false") : Atom t (.bool false)
  | int {i : Int} {w : Int64} (h : Numeral.Denotes t.chars i) (hw : w.toInt = i) : Atom t (.int w (some t))
  | keyword {name : List Char} (h : t.chars = ':' :: name) :
    Atom t (.keyword ⟨.shared, String.ofList name⟩ (some t))
  | str {body value : List Char} (h : t.chars = '"' :: (body ++ ['"'])) (hi : Quoted.Inside body value) :
    Atom t (.str (String.ofList value) (some t))
  | symbol (ht : t.text ≠ "true") (hf : t.text ≠ "false") (hn : ∀ i, ¬Numeral.Denotes t.chars i)
    (hk : t.chars.head? ≠ some ':') (hq : t.chars.head? ≠ some '"') (hd : ¬Shape.IsDelimiter t.chars) :
    Atom t (.symbol t.text (some t))

/-- What is wrong with a token that is neither a delimiter nor an atom: its text is a numeral without a word, it starts with a quote
and no other quote ends it, or it is a literal with a backslash in it that starts no escape. The first such backslash counts. -/
inductive AtomFault (t : Token) : ReadError → Prop where
  | range {i : Int} (h : Numeral.Denotes t.chars i) (hr : ¬InRange i) : AtomFault t (.integerOutOfRange t.text)
  | unbalanced {rest : List Char} (h : t.chars = '"' :: rest)
    (hr : ∀ body, rest = body ++ ['"'] → Quoted.trailingBackslashes body % 2 = 1) : AtomFault t (.unbalancedString t.offset)
  | escape {front value rest : List Char} {c : Char} (h : t.chars = '"' :: (front ++ '\\' :: c :: rest ++ ['"']))
    (he : Quoted.trailingBackslashes (front ++ '\\' :: c :: rest) % 2 = 0) (hi : Quoted.Inside front value)
    (hc : c ∉ ['\\', 'n', '"']) : AtomFault t (.unrecognizedEscape c)

/-- A numeral starts with a digit or a minus sign. -/
theorem Numeral.Denotes.head {cs : List Char} {i : Int} (h : Denotes cs i) :
    ∃ c rest, cs = c :: rest ∧ (c = '-' ∨ c.isDigit = true) := by
  rcases h with @⟨_ | ⟨d, ds⟩, hne, hd⟩ | @⟨ds, hne, hd⟩
  · exact absurd rfl hne
  · exact ⟨d, ds, rfl, .inr (hd d (by simp))⟩
  · exact ⟨'-', ds, rfl, .inl rfl⟩

/-- It starts with no other character. -/
theorem Numeral.Denotes.head?_ne {cs : List Char} {i : Int} (h : Denotes cs i) {c : Char} (hm : c ≠ '-')
    (hd : c.isDigit = false) : cs.head? ≠ some c := by
  obtain ⟨c', rest, rfl, hc⟩ := h.head
  intro hcs
  cases hcs
  simp [hm, hd] at hc

/-- A numeral is no delimiter. -/
theorem Numeral.Denotes.not_isDelimiter {cs : List Char} {i : Int} (h : Denotes cs i) : ¬Shape.IsDelimiter cs := by
  obtain ⟨c, rest, rfl, hc⟩ := h.head
  rintro ⟨(_ | _) | _, hs | hs⟩ <;> cases hs <;> simp [Shape.opening, Shape.closing] at hc

/-- A text that starts with anything else is read as no integer. -/
theorem Numeral.parse?_eq_none {c : Char} {rest : List Char} (hm : c ≠ '-') (hd : c.isDigit = false) :
    parse? (c :: rest) = none := by
  rw [Option.eq_none_iff_forall_ne_some]
  intro i h
  exact (parse?_eq_some_iff.mp h).head?_ne hm hd rfl

/-- A token that does not start like one of the boolean names is none of them. -/
theorem Token.text_ne_bool {t : Token} {c : Char} {rest : List Char} (h : t.chars = c :: rest) (ht : c ≠ 't')
    (hf : c ≠ 'f') : t.text ≠ "true" ∧ t.text ≠ "false" := by
  rw [Token.chars] at h
  refine ⟨fun he => ?_, fun he => ?_⟩
  · rw [he, show "true".toList = ['t', 'r', 'u', 'e'] from rfl] at h
    exact ht (List.cons.inj h).1.symm
  · rw [he, show "false".toList = ['f', 'a', 'l', 's', 'e'] from rfl] at h
    exact hf (List.cons.inj h).1.symm

/-- A numeral is none of the boolean names. -/
theorem Numeral.Denotes.text_ne_bool {t : Token} {i : Int} (h : Denotes t.chars i) : t.text ≠ "true" ∧ t.text ≠ "false" := by
  obtain ⟨c, rest, hc, hd⟩ := h.head
  exact Token.text_ne_bool hc (by rintro rfl; simp at hd) (by rintro rfl; simp at hd)

/-- An atom is no delimiter. -/
theorem Atom.not_isDelimiter {t : Token} {f : Form} (h : Atom t f) : ¬Shape.IsDelimiter t.chars := by
  rintro ⟨s, hs⟩
  have hlen : t.chars.length = 1 := by rcases hs with hs | hs <;> simp [hs]
  cases h with
  | yes h => simp [Token.chars, h] at hlen
  | no h => simp [Token.chars, h] at hlen
  | int h => exact h.not_isDelimiter ⟨s, hs⟩
  | keyword h =>
    rw [h] at hs
    rcases s with (_ | _) | _ <;> rcases hs with hs | hs <;> cases hs
  | str h => simp [h] at hlen
  | symbol _ _ _ _ _ hd => exact hd ⟨s, hs⟩

/-- An atom is no collection. -/
theorem Atom.nesting {t : Token} {f : Form} (h : Atom t f) : f.nesting = 0 := by cases h <;> rfl

/-- A numeral is read as its word, if there is one. -/
theorem readAtom_of_denotes {t : Token} {i : Int} (h : Numeral.Denotes t.chars i) :
    readAtom t =
      match toWord? i with
      | some w => .ok (.int w (some t))
      | none => .error (.integerOutOfRange t.text) := by
  obtain ⟨ht, hf⟩ := h.text_ne_bool
  cases hw : toWord? i <;> simp only [readAtom, if_neg ht, if_neg hf, Numeral.parse?_eq_some_iff.mpr h, hw]

/-- A token that starts with a quote is read as a literal. -/
theorem readAtom_of_quote {t : Token} {rest : List Char} (h : t.chars = '"' :: rest) :
    readAtom t =
      match Quoted.inside? t.chars with
      | none => .error (.unbalancedString t.offset)
      | some inside =>
        match Quoted.decode inside with
        | .ok cs => .ok (.str (String.ofList cs) (some t))
        | .error escape => .error (.unrecognizedEscape escape) := by
  obtain ⟨ht, hf⟩ := Token.text_ne_bool h (by decide) (by decide)
  rw [readAtom, if_neg ht, if_neg hf, h, Numeral.parse?_eq_none (by decide) (by decide)]
  rfl

/-- A token is read as the form that it stands for. -/
theorem Atom.readAtom {t : Token} {f : Form} (h : Atom t f) : readAtom t = .ok f := by
  cases h with
  | yes h => simp [TinyLisp.readAtom, h]
  | no h => simp [TinyLisp.readAtom, h]
  | int h hw => simp only [readAtom_of_denotes h, toWord?_eq_some_iff.mpr hw]
  | keyword h =>
    obtain ⟨ht, hf⟩ := Token.text_ne_bool h (by decide) (by decide)
    rw [TinyLisp.readAtom, if_neg ht, if_neg hf, h, Numeral.parse?_eq_none (by decide) (by decide)]
    rfl
  | @str body value h hi =>
    have hin : Quoted.inside? t.chars = some body := Quoted.inside?_eq_some_iff.mpr ⟨h, hi.even⟩
    simp only [readAtom_of_quote h, hin, Quoted.decode_eq_ok_iff.mpr hi]
  | symbol ht hf hn hk hq hd =>
    have hp : Numeral.parse? t.chars = none := by
      rw [Option.eq_none_iff_forall_ne_some]
      exact fun i hi => hn i (Numeral.parse?_eq_some_iff.mp hi)
    rw [TinyLisp.readAtom, if_neg ht, if_neg hf, hp]
    simp only
    split
    · next hc => simp [hc] at hk
    · next hc => simp [hc] at hq
    · rfl

/-- What is wrong with a token is reported. -/
theorem AtomFault.readAtom {t : Token} {e : ReadError} (h : AtomFault t e) : readAtom t = .error e := by
  cases h with
  | range h hr => simp only [readAtom_of_denotes h, toWord?_eq_none_iff.mpr hr]
  | unbalanced h hr =>
    have hnone : Quoted.inside? t.chars = none := by
      rw [Option.eq_none_iff_forall_ne_some]
      intro body hbody
      obtain ⟨hchars, heven⟩ := Quoted.inside?_eq_some_iff.mp hbody
      have hodd := hr body (List.cons.inj (h.symm.trans hchars)).2
      omega
    simp only [readAtom_of_quote h, hnone]
  | @escape front value rest c h he hi hc =>
    have hdecode : Quoted.decode (front ++ '\\' :: c :: rest) = .error c :=
      Quoted.decode_eq_error_iff.mpr ⟨front, value, hi, .inl ⟨Quoted.unescape?_eq_none_iff.mpr hc, rest, rfl⟩⟩
    simp only [readAtom_of_quote h, Quoted.inside?_eq_some_iff.mpr ⟨h, he⟩, hdecode]

/-- A token that is no delimiter stands for what it is read as, and what is reported is wrong with it. -/
theorem readAtom_cases (t : Token) :
    match readAtom t with
    | .ok f => ¬Shape.IsDelimiter t.chars → Atom t f
    | .error e => AtomFault t e := by
  generalize hr : readAtom t = r
  unfold readAtom at hr
  split at hr
  · next ht => subst hr; exact fun _ => .yes ht
  next ht =>
  split at hr
  · next hf => subst hr; exact fun _ => .no hf
  next hf =>
  split at hr
  · next i hi =>
    have hdenotes := Numeral.parse?_eq_some_iff.mp hi
    split at hr <;> subst hr
    · next w hw => exact fun _ => .int hdenotes (toWord?_eq_some_iff.mp hw)
    · next hw => exact .range hdenotes (toWord?_eq_none_iff.mp hw)
  · next hp =>
    split at hr
    · next name hk => subst hr; exact fun _ => .keyword hk
    · next rest hq =>
      split at hr
      · next hnone =>
        subst hr
        refine .unbalanced hq fun body hbody => ?_
        have hodd := mt Quoted.inside?_eq_some_iff.mpr (Option.eq_none_iff_forall_ne_some.mp hnone body)
        exact Nat.mod_two_ne_zero.mp fun heven => hodd ⟨hbody ▸ hq, heven⟩
      · next body hbody =>
        obtain ⟨hchars, heven⟩ := Quoted.inside?_eq_some_iff.mp hbody
        split at hr <;> subst hr
        · next value hv => exact fun _ => .str hchars (Quoted.decode_eq_ok_iff.mp hv)
        · next c hdecode =>
          obtain ⟨front, value, hfront, ⟨hc, rest, rfl⟩ | ⟨-, rfl⟩⟩ := Quoted.decode_eq_error_iff.mp hdecode
          · exact .escape hchars heven hfront (Quoted.unescape?_eq_none_iff.mp hc)
          · -- A backslash at the end would make the closing quote a part of an escape.
            rw [hfront.trailingBackslashes_append] at heven
            cases heven
    · next hk hq =>
      subst hr
      intro hd
      refine .symbol ht hf ?_ ?_ ?_ hd
      · intro i hi
        rw [← Numeral.parse?_eq_some_iff, hp] at hi
        cases hi
      · intro hc
        obtain ⟨cs, hcs⟩ := List.head?_eq_some_iff.mp hc
        exact hk cs hcs
      · intro hc
        obtain ⟨cs, hcs⟩ := List.head?_eq_some_iff.mp hc
        exact hq cs hcs

/-- Reading a single token that is no delimiter gives a form exactly when the token stands for it. -/
theorem atom_iff {t : Token} {f : Form} :
    Atom t f ↔ ¬Shape.IsDelimiter t.chars ∧ readAtom t = .ok f := by
  refine ⟨fun h => ⟨h.not_isDelimiter, h.readAtom⟩, ?_⟩
  rintro ⟨hd, h⟩
  have hcases := readAtom_cases t
  rw [h] at hcases
  exact hcases hd

/-- Reading complains about what is wrong with a token, and about nothing else. -/
theorem readAtom_eq_error_iff {t : Token} {e : ReadError} : readAtom t = .error e ↔ AtomFault t e := by
  refine ⟨?_, AtomFault.readAtom⟩
  intro h
  have hcases := readAtom_cases t
  rw [h] at hcases
  exact hcases

end TinyLisp

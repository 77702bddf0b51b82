import TinyLisp.Proofs.Atoms
import TinyLisp.Token.Lexer

/-!
# Lexemes on their own and in a text

A lexeme that was taken from a text is the same lexeme when it is all the text there is (`tokenize_text`). The other way, a text
that is one lexeme by itself is one before any text that ends lexemes, unless it is a comment or an unfinished string literal
(`stands_of_lexeme`). The writer of forms puts nothing but such texts before one another.
-/

namespace TinyLisp.Lexer

/-! ## One lexeme -/

/-- A text that ends the bare lexeme before it: the end of the input, or a character that ends lexemes. -/
def Breaks (rest : List Char) : Prop := ∀ c ∈ rest.head?, endsBare c = true

/-- A text that is one lexeme wherever a text follows that ends lexemes. -/
def Stands (cs : List Char) : Prop :=
  ∃ c r, cs = c :: r ∧ isGap c = false ∧ ∀ rest, Breaks rest → lexeme c (r ++ rest) = (c :: r, rest)

/-- A text that is one lexeme by itself. -/
def Whole (cs : List Char) : Prop := ∃ c r, cs = c :: r ∧ isGap c = false ∧ lexeme c r = (c :: r, [])

theorem breaks_nil : Breaks [] := by simp [Breaks]

theorem breaks_blank (rest : List Char) : Breaks (' ' :: rest) := by
  simp only [Breaks, List.head?_cons, Option.mem_some, forall_eq']
  decide

theorem breaks_closing (s : Shape) (rest : List Char) : Breaks (s.closing :: rest) := by
  rcases s with (_ | _) | _ <;> simp [Breaks, Shape.closing, endsBare]

/-- What is taken from a text while a test holds is a part that passes it, up to a character that does not. -/
theorem takeWhile_append_of_head {p : Char → Bool} {r rest : List Char} (hr : ∀ c ∈ r, p c = true)
    (hrest : ∀ c ∈ rest.head?, p c = false) :
    (r ++ rest).takeWhile p = r ∧ (r ++ rest).dropWhile p = rest := by
  rw [List.takeWhile_append_of_pos hr, List.dropWhile_append_of_pos hr]
  cases rest with
  | nil => simp
  | cons c rest => simp [hrest c (by simp)]

/-- Taking again from what was taken changes nothing. -/
theorem takeWhile_takeWhile (p : Char → Bool) (r : List Char) :
    (r.takeWhile p).takeWhile p = r.takeWhile p ∧ (r.takeWhile p).dropWhile p = [] := by
  have hp : ∀ c ∈ r.takeWhile p, p c = true := List.all_eq_true.mp List.all_takeWhile
  have h := takeWhile_append_of_head hp (show ∀ c ∈ ([] : List Char).head?, p c = false by simp)
  rwa [List.append_nil] at h

/-- A character that is no backslash either ends the string lexeme or belongs to it. -/
theorem splitString_cons_of_ne {c : Char} (h : c ≠ '\\') (rest : List Char) :
    splitString (c :: rest) =
      if c = '"' then ([c], rest) else (c :: (splitString rest).1, (splitString rest).2) :=
  splitString.eq_4 c rest (fun hc _ => h hc) (fun _ _ hc _ => h hc)

/-- A string lexeme is one by itself. -/
theorem splitString_splitString (cs : List Char) : splitString (splitString cs).1 = ((splitString cs).1, []) := by
  fun_induction splitString cs with
  | case1 | case2 | case3 => rfl
  | case4 e rest he ih => simp [splitString, he, ih]
  | case5 => rfl
  | case6 c rest hn hr hc ih =>
    rw [splitString_cons_of_ne (ne_backslash_of_cases hn hr), if_neg hc, ih]

/-- Where a lexeme starts that is no gap, the rest of the text does not matter beyond its end. -/
theorem whole_lexeme {c : Char} {r : List Char} (h : isGap c = false) : Whole (lexeme c r).1 := by
  unfold lexeme
  split
  · exact ⟨'~', ['@'], rfl, by decide, by decide⟩
  · next ht =>
    split
    · next hs => exact ⟨c, [], rfl, h, by simp [lexeme, hs]⟩
    · next hs =>
      split
      · next hq => exact ⟨c, _, rfl, h, by subst hq; simp [lexeme, standsAlone, splitString_splitString]⟩
      · next hq =>
        have hc : c ≠ '~' := by rintro rfl; exact hs (by decide)
        split
        · next hk =>
          obtain ⟨ht, hd⟩ := takeWhile_takeWhile (· ≠ '\n') r
          exact ⟨c, _, rfl, h, by rw [lexeme, if_neg (by simp [hc]), if_neg hs, if_neg hq, if_pos hk, ht, hd]⟩
        · next hk =>
          obtain ⟨ht, hd⟩ := takeWhile_takeWhile (!endsBare ·) r
          exact ⟨c, _, rfl, h, by rw [lexeme, if_neg (by simp [hc]), if_neg hs, if_neg hq, if_neg hk, ht, hd]⟩

/-- A bare lexeme is one before any text that ends lexemes. -/
theorem stands_of_bare {c : Char} {r : List Char} (hg : isGap c = false) (hs : standsAlone c = false) (hq : c ≠ '"')
    (hk : c ≠ ';') (hr : r.all (!endsBare ·) = true) : Stands (c :: r) := by
  refine ⟨c, r, rfl, hg, fun rest hb => ?_⟩
  have hc : c ≠ '~' := by rintro rfl; exact absurd hs (by decide)
  obtain ⟨ht, hd⟩ := takeWhile_append_of_head (p := (!endsBare ·)) (List.all_eq_true.mp hr) (by simpa [Breaks] using hb)
  simp [lexeme, hc, hs, hq, hk, ht, hd]

/-- A text that is one lexeme by itself is one before any text that ends lexemes, unless it is a comment or a string literal. -/
theorem Whole.stands {cs : List Char} (h : Whole cs) (hq : cs.head? ≠ some '"') (hk : cs.head? ≠ some ';') :
    Stands cs := by
  obtain ⟨c, r, rfl, hg, hl⟩ := h
  simp only [List.head?_cons, ne_eq, Option.some.injEq] at hq hk
  unfold lexeme at hl
  split at hl
  · next ht =>
    obtain ⟨rfl, _⟩ := ht
    cases hl
    exact ⟨'~', ['@'], rfl, hg, fun rest _ => by simp [lexeme]⟩
  · split at hl
    · next hs =>
      cases hl
      refine ⟨c, [], rfl, hg, fun rest hb => ?_⟩
      have ht : ¬(c = '~' ∧ rest.head? = some '@') := fun ht => absurd (hb '@' ht.2) (by decide)
      simp [lexeme, ht, hs]
    · next hs =>
      have ht : r.takeWhile (!endsBare ·) = r := by simpa [hq, hk] using congrArg Prod.fst hl
      exact stands_of_bare hg (by simpa using hs) hq hk (ht ▸ List.all_takeWhile)

/-- What is written for a character inside a literal does not end the literal. -/
theorem splitString_escape_append (c : Char) (rest : List Char) :
    splitString (Quoted.escape c ++ rest) = (Quoted.escape c ++ (splitString rest).1, (splitString rest).2) := by
  unfold Quoted.escape
  split
  · simp [splitString]
  · simp [splitString]
  · simp [splitString]
  · next hq hn hb =>
    rw [List.singleton_append, splitString_cons_of_ne hb, if_neg hq]
    rfl

/-- A literal is one lexeme, whatever follows. -/
theorem stands_encode (cs : List Char) : Stands (Quoted.encode cs) := by
  refine ⟨'"', cs.flatMap Quoted.escape ++ ['"'], rfl, by decide, fun rest _ => ?_⟩
  have hs : splitString (cs.flatMap Quoted.escape ++ ('"' :: rest)) = (cs.flatMap Quoted.escape ++ ['"'], rest) := by
    induction cs with
    | nil => simp [splitString]
    | cons c cs ih => rw [List.flatMap_cons, List.append_assoc, splitString_escape_append, ih, List.append_assoc]
  simp [lexeme, standsAlone, hs]

/-- A digit is no gap, stands not alone and ends no lexeme. -/
theorem endsBare_of_isDigit {d : Char} (h : d.isDigit = true) :
    isGap d = false ∧ standsAlone d = false ∧ endsBare d = false := by
  have hgap : isGap d = false := by
    have hc : d ≠ ',' := by rintro rfl; simp at h
    have h1 : 48 ≤ d.toNat ∧ d.toNat ≤ 57 := Char.isDigit_iff_toNat.mp h
    simp only [isGap, isBlank, covers, blankRanges, List.any_cons, List.any_nil, Bool.or_false, Bool.or_eq_false_iff,
      Bool.and_eq_false_iff, decide_eq_false_iff_not, beq_eq_false_iff_ne]
    exact ⟨by omega, hc⟩
  have hall : ['[', ']', '{', '}', '(', ')', '\x27', '\x60', '~', '^', '@', '"', ';'].all (!·.isDigit) = true := by decide
  have hne : ∀ e ∈ ['[', ']', '{', '}', '(', ')', '\x27', '\x60', '~', '^', '@', '"', ';'], d ≠ e := by
    rintro e he rfl
    have := List.all_eq_true.mp hall d he
    simp [h] at this
  simp only [List.forall_mem_cons] at hne
  simp [hgap, standsAlone, endsBare, hne]

/-- Nor does any digit of a text of digits. -/
theorem all_of_isDigit {ds : List Char} (h : ∀ d ∈ ds, d.isDigit = true) : ds.all (!endsBare ·) = true :=
  List.all_eq_true.mpr fun d hd => by rw [(endsBare_of_isDigit (h d hd)).2.2, Bool.not_false]

/-- A numeral is one lexeme, leading zeros included. -/
theorem stands_of_denotes {cs : List Char} {i : Int} (h : Numeral.Denotes cs i) : Stands cs := by
  rcases h with @⟨_ | ⟨d, ds⟩, hne, hd⟩ | ⟨_, hd⟩
  · exact absurd rfl hne
  · obtain ⟨h1, hds⟩ := List.forall_mem_cons.mp hd
    obtain ⟨hg, hs, _⟩ := endsBare_of_isDigit h1
    exact stands_of_bare hg hs (by rintro rfl; simp at h1) (by rintro rfl; simp at h1) (all_of_isDigit hds)
  · exact stands_of_bare (by decide) (by decide) (by decide) (by decide) (all_of_isDigit hd)

/-- The numeral that is written for an integer is one lexeme. -/
theorem stands_spell (i : Int) : Stands (Numeral.spell i) :=
  stands_of_denotes (Numeral.parse?_eq_some_iff.mp (Numeral.parse?_spell i))

/-- A boolean is one lexeme. -/
theorem stands_spellBool (b : Bool) : Stands (spellBool b) := by
  cases b
  · exact stands_of_bare (c := 'f') (by decide) (by decide) (by decide) (by decide) (by decide)
  · exact stands_of_bare (c := 't') (by decide) (by decide) (by decide) (by decide) (by decide)

/-! ## Tokens -/

/-- A gap before the tokens is left out. -/
theorem tokens_gap {c : Char} (h : isGap c = true) (offset : Nat) (rest : List Char) :
    tokens offset (c :: rest) = tokens (offset + c.utf8Size) rest := by
  rw [tokens, if_pos h]

/-- What starts with no gap starts with a token. -/
theorem tokens_lexeme {c : Char} (h : isGap c = false) (offset : Nat) (rest : List Char) :
    tokens offset (c :: rest) =
      ⟨String.ofList (lexeme c rest).1, offset⟩ :: tokens (offset + width (lexeme c rest).1) (lexeme c rest).2 := by
  rw [tokens, if_neg (by simp [h])]

/-- Every token is a lexeme by itself. -/
theorem whole_of_mem_tokens {t : Token} {offset : Nat} {cs : List Char} (h : t ∈ tokens offset cs) : Whole t.chars := by
  fun_induction tokens offset cs with
  | case1 => cases h
  | case2 offset c rest hg ih => exact ih h
  | case3 offset c rest hg ih =>
    rcases List.mem_cons.mp h with rfl | h
    · rw [Token.chars, String.toList_ofList]
      exact whole_lexeme (by simpa using hg)
    · exact ih h

/-- A text that is one lexeme has one token. -/
theorem Whole.tokens {cs : List Char} (h : Whole cs) (offset : Nat) : tokens offset cs = [⟨String.ofList cs, offset⟩] := by
  obtain ⟨c, r, rfl, hg, hl⟩ := h
  rw [tokens_lexeme hg, hl, Lexer.tokens]

/-- A text that stands as a lexeme before another text is the first token of both. -/
theorem Stands.tokens {cs rest : List Char} (h : Stands cs) (hb : Breaks rest) (offset : Nat) :
    tokens offset (cs ++ rest) = ⟨String.ofList cs, offset⟩ :: tokens (offset + width cs) rest := by
  obtain ⟨c, r, rfl, hg, hl⟩ := h
  rw [List.cons_append, tokens_lexeme hg, hl rest hb]

/-- A delimiter is a token, whatever follows. -/
theorem tokens_delimiter {c : Char} (h : Shape.IsDelimiter [c]) (offset : Nat) (rest : List Char) :
    tokens offset (c :: rest) = ⟨String.ofList [c], offset⟩ :: tokens (offset + width [c]) rest := by
  have hl : isGap c = false ∧ lexeme c rest = ([c], rest) := by
    obtain ⟨(_ | _) | _, hs | hs⟩ := h <;> cases hs <;>
      exact ⟨by decide, by simp [lexeme, standsAlone, Shape.opening, Shape.closing]⟩
  rw [tokens_lexeme hl.1, hl.2]

/-- A delimiter is no comment. -/
theorem not_isComment_of_isDelimiter {t : Token} (h : Shape.IsDelimiter t.chars) : t.isComment = false := by
  rw [Token.isComment]
  obtain ⟨(_ | _) | _, hs | hs⟩ := h <;> rw [hs] <;> decide

/-! ## Texts made of texts -/

/-- Wherever the text stands before one that ends lexemes, its tokens are those of something with the given property, and no
comments. -/
def Gives {β : Type} (cs : List Char) (toks : β → List Token) (P : β → Prop) : Prop :=
  ∀ offset rest, Breaks rest → ∃ b, P b ∧ (∀ t ∈ toks b, t.isComment = false) ∧
    tokens offset (cs ++ rest) = toks b ++ tokens (offset + width cs) rest

section

variable {α β γ : Type} {toks : β → List Token}

/-- What a text gives may be seen as something else that has the same tokens. -/
theorem Gives.imp {cs : List Char} {P : β → Prop} {toks' : γ → List Token} {Q : γ → Prop} (h : Gives cs toks P) (f : β → γ)
    (hf : ∀ b, P b → Q (f b) ∧ toks' (f b) = toks b) : Gives cs toks' Q := by
  intro offset rest hb
  obtain ⟨b, hp, hc, ht⟩ := h offset rest hb
  obtain ⟨hq, he⟩ := hf b hp
  exact ⟨f b, hq, he ▸ hc, he ▸ ht⟩

/-- Two texts with a blank between them give what each gives by itself. -/
theorem Gives.blank {cs ds : List Char} {P : β → Prop} {toks' : γ → List Token} {Q : γ → Prop} (h : Gives cs toks P)
    (h' : Gives ds toks' Q) :
    Gives (cs ++ ' ' :: ds) (fun q : β × γ => toks q.1 ++ toks' q.2) fun q => P q.1 ∧ Q q.2 := by
  intro offset rest hb
  obtain ⟨b, hp, hc, ht⟩ := h offset (' ' :: (ds ++ rest)) (breaks_blank _)
  obtain ⟨c, hq, hc', ht'⟩ := h' (offset + width cs + ' '.utf8Size) rest hb
  refine ⟨(b, c), ⟨hp, hq⟩, List.forall_mem_append.mpr ⟨hc, hc'⟩, ?_⟩
  rw [List.append_assoc, List.cons_append, ht, tokens_gap (by decide), ht', List.append_assoc, width_append, width_cons,
    Nat.add_assoc, Nat.add_assoc]

/-- Texts with a blank between two of them give what each gives by itself. -/
theorem gives_intercalate {spell : α → List Char} {P : α → β → Prop} {as : List α}
    (h : ∀ a ∈ as, Gives (spell a) toks (P a)) :
    Gives ([' '].intercalate (as.map spell)) (fun ps : List (α × β) => ps.flatMap fun p => toks p.2)
      fun ps => ps.map Prod.fst = as ∧ ∀ p ∈ ps, P p.1 p.2 := by
  induction as with
  | nil => exact fun offset rest _ => ⟨[], by simp [List.intercalate]⟩
  | cons a as ih =>
    obtain ⟨ha, has⟩ := List.forall_mem_cons.mp h
    cases as with
    | nil =>
      have hs : [' '].intercalate ([a].map spell) = spell a := by simp [List.intercalate]
      rw [hs]
      exact ha.imp (fun b => [(a, b)]) fun b hp => by simpa using hp
    | cons a' as =>
      have hs : [' '].intercalate ((a :: a' :: as).map spell) =
          spell a ++ ' ' :: [' '].intercalate ((a' :: as).map spell) := by simp [List.intercalate]
      rw [hs]
      refine (ha.blank (ih has)).imp (fun q => (a, q.1) :: q.2) ?_
      rintro ⟨b, ps⟩ ⟨hp, hfst, hps⟩
      exact ⟨⟨by simp [hfst], List.forall_mem_cons.mpr ⟨hp, hps⟩⟩, rfl⟩

/-- A text between delimiters gives its tokens between those of the delimiters. -/
theorem Gives.enclose {s : Shape} {members : List (List Char)} {P : β → Prop}
    (h : Gives ([' '].intercalate members) toks P) :
    Gives (s.enclose members) (fun q : Token × β × Token => q.1 :: (toks q.2.1 ++ [q.2.2]))
      fun q => q.1.chars = [s.opening] ∧ P q.2.1 ∧ q.2.2.chars = [s.closing] := by
  intro offset rest _
  obtain ⟨b, hp, hc, ht⟩ := h (offset + width [s.opening]) (s.closing :: rest) (breaks_closing s rest)
  have ho : Shape.IsDelimiter [s.opening] := ⟨s, .inl rfl⟩
  have hcl : Shape.IsDelimiter [s.closing] := ⟨s, .inr rfl⟩
  refine ⟨(⟨String.ofList [s.opening], offset⟩, b,
    ⟨String.ofList [s.closing], offset + width [s.opening] + width ([' '].intercalate members)⟩), ⟨?_, hp, ?_⟩, ?_, ?_⟩
  · rw [Token.chars, String.toList_ofList]
  · rw [Token.chars, String.toList_ofList]
  · refine List.forall_mem_cons.mpr ⟨not_isComment_of_isDelimiter (by rwa [Token.chars, String.toList_ofList]), ?_⟩
    refine List.forall_mem_append.mpr ⟨hc, ?_⟩
    rw [List.forall_mem_singleton]
    exact not_isComment_of_isDelimiter (by rwa [Token.chars, String.toList_ofList])
  · rw [Shape.enclose, List.cons_append, List.append_assoc, List.singleton_append, tokens_delimiter ho, ht,
      tokens_delimiter hcl]
    simp [Nat.add_assoc]

end

end TinyLisp.Lexer

namespace TinyLisp

/-- The text of a token has that token only, at its front. -/
theorem tokenize_text {source : String} {t : Token} (h : t ∈ tokenize source) : tokenize t.text = [⟨t.text, 0⟩] := by
  have := (Lexer.whole_of_mem_tokens h).tokens 0
  rwa [Token.chars, String.ofList_toList] at this

end TinyLisp

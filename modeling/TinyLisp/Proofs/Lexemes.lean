import Mathlib
import TinyLisp.Proofs.Pattern

/-!
# How a text is cut

`Lexer.Cuts` says what a lexeme is by where it starts and where it has to end, without saying how it is found. Each text that
does not start with a gap character starts with exactly one lexeme (`cuts_lexeme`, `Cuts.unique`).

`Lexer.Tokenized` says what the tokens of a text are: slices of the text in order, each the lexeme that is cut where it starts,
with nothing but gap characters around them. The laws for a gap character and for a lexeme at the front of a text take such
tokens apart in the way the lexer makes them. `tokenize_cuts_source` says that the lexer finds these tokens, that there are no
others, and that repeated search for the pattern of tokens finds them as well.
-/

namespace TinyLisp.Lexer

/-! ## Lexemes by their ends -/

/-- What stands inside a string lexeme: characters that are no backslash and no quote, and backslashes that take along a
character that is no newline. -/
inductive StringBody : List Char → Prop where
  | nil : StringBody []
  | plain {c : Char} {cs : List Char} (hb : c ≠ '\\') (hq : c ≠ '"') (h : StringBody cs) : StringBody (c :: cs)
  | pair {e : Char} {cs : List Char} (he : e ≠ '\n') (h : StringBody cs) : StringBody ('\\' :: e :: cs)

/-- What follows a string lexeme that no quote closes: the end of the text, or a backslash before a newline or the end. -/
inductive StringEnd : List Char → Prop where
  | nil : StringEnd []
  | backslash : StringEnd ['\\']
  | newline (rest : List Char) : StringEnd ('\\' :: '\n' :: rest)

/-- A lexeme and the text after it. The marker of two characters comes before the characters that stand alone. A string lexeme
goes to the first quote that no backslash takes along, a comment to the end of its line, and any other lexeme to the next
character that ends such lexemes. -/
inductive Cuts : List Char → List Char → Prop where
  | splice (rest : List Char) : Cuts ['~', '@'] rest
  | alone {c : Char} {rest : List Char} (hc : standsAlone c = true) (hs : ¬(c = '~' ∧ rest.head? = some '@')) : Cuts [c] rest
  | closed {body : List Char} (hb : StringBody body) (rest : List Char) : Cuts ('"' :: (body ++ ['"'])) rest
  | unclosed {body rest : List Char} (hb : StringBody body) (he : StringEnd rest) : Cuts ('"' :: body) rest
  | comment {body rest : List Char} (hb : ∀ c ∈ body, c ≠ '\n') (hr : ∀ c ∈ rest.head?, c = '\n') : Cuts (';' :: body) rest
  | bare {c : Char} {body rest : List Char} (hg : isGap c = false) (hs : standsAlone c = false) (hq : c ≠ '"') (hk : c ≠ ';')
    (hb : ∀ c ∈ body, endsBare c = false) (hr : Breaks rest) : Cuts (c :: body) rest

/-! ## String lexemes -/

/-- The first quote that no backslash takes along closes a string lexeme. -/
theorem splitString_closed {body : List Char} (h : StringBody body) (rest : List Char) :
    splitString (body ++ '"' :: rest) = (body ++ ['"'], rest) := by
  induction h with
  | nil => simp [splitString]
  | plain hb hq _ ih => rw [List.cons_append, splitString_cons_of_ne hb, if_neg hq, ih, List.cons_append]
  | pair he _ ih => simp [splitString, he, ih]

/-- Without such a quote the string lexeme ends where the text ends or a backslash takes nothing along. -/
theorem splitString_unclosed {body rest : List Char} (h : StringBody body) (hr : StringEnd rest) :
    splitString (body ++ rest) = (body, rest) := by
  induction h with
  | nil =>
    cases hr with
    | nil | backslash => rfl
    | newline rest => simp [splitString]
  | plain hb hq _ ih => rw [List.cons_append, splitString_cons_of_ne hb, if_neg hq, ih]
  | pair he _ ih => simp [splitString, he, ih]

/-- What follows an opening quote is either closed or not. -/
theorem stringBody_cases (cs : List Char) :
    ∃ body rest, StringBody body ∧ (cs = body ++ '"' :: rest ∨ (cs = body ++ rest ∧ StringEnd rest)) := by
  fun_induction splitString cs with
  | case1 => exact ⟨[], [], .nil, .inr ⟨rfl, .nil⟩⟩
  | case2 => exact ⟨[], ['\\'], .nil, .inr ⟨rfl, .backslash⟩⟩
  | case3 rest => exact ⟨[], '\\' :: '\n' :: rest, .nil, .inr ⟨rfl, .newline rest⟩⟩
  | case4 e rest he ih =>
    obtain ⟨body, rest', hb, rfl | ⟨rfl, hend⟩⟩ := ih
    · exact ⟨'\\' :: e :: body, rest', .pair he hb, .inl rfl⟩
    · exact ⟨'\\' :: e :: body, rest', .pair he hb, .inr ⟨rfl, hend⟩⟩
  | case5 rest => exact ⟨[], rest, .nil, .inl rfl⟩
  | case6 c rest hn hr hc ih =>
    have hbackslash : c ≠ '\\' := ne_backslash_of_cases hn hr
    obtain ⟨body, rest', hb, rfl | ⟨rfl, hend⟩⟩ := ih
    · exact ⟨c :: body, rest', .plain hbackslash hc hb, .inl rfl⟩
    · exact ⟨c :: body, rest', .plain hbackslash hc hb, .inr ⟨rfl, hend⟩⟩

/-! ## One lexeme at every place -/

/-- The lexer cuts off a lexeme. -/
theorem cuts_lexeme {c : Char} (hg : isGap c = false) (rest : List Char) : Cuts (lexeme c rest).1 (lexeme c rest).2 := by
  unfold lexeme
  split
  · exact .splice _
  · next hns =>
    split
    · next hs => exact .alone hs hns
    · next hs =>
      split
      · next hq =>
        subst hq
        obtain ⟨body, rest', hb, rfl | ⟨rfl, hr⟩⟩ := stringBody_cases rest
        · rw [splitString_closed hb]
          exact .closed hb rest'
        · rw [splitString_unclosed hb hr]
          exact .unclosed hb hr
      · next hq =>
        split
        · next hk =>
          subst hk
          refine .comment ?_ ?_
          · intro d hd
            simpa using List.all_eq_true.mp List.all_takeWhile d hd
          · intro d hd
            have := List.head?_dropWhile_not (· ≠ '\n') rest
            rw [Option.mem_def.mp hd] at this
            simpa using this
        · next hk =>
          refine .bare hg (by simpa using hs) hq hk ?_ ?_
          · intro d hd
            simpa using List.all_eq_true.mp List.all_takeWhile d hd
          · intro d hd
            have := List.head?_dropWhile_not (!endsBare ·) rest
            rw [Option.mem_def.mp hd] at this
            simpa using this

/-- What is cut off is the lexeme of the lexer. -/
theorem Cuts.lexeme_eq {cs rest : List Char} (h : Cuts cs rest) :
    ∃ c r, cs = c :: r ∧ isGap c = false ∧ lexeme c (r ++ rest) = (c :: r, rest) := by
  cases h with
  | splice => exact ⟨'~', ['@'], rfl, by decide, by simp [lexeme]⟩
  | @alone c rest hc hs =>
    have hg : isGap c = false := by
      simp only [standsAlone, List.mem_cons, List.not_mem_nil, or_false, decide_eq_true_eq] at hc
      rcases hc with rfl | rfl | rfl | rfl | rfl | rfl | rfl | rfl | rfl | rfl | rfl <;> decide
    exact ⟨c, [], rfl, hg, by simp [lexeme, hc, hs]⟩
  | @closed body hb =>
    refine ⟨'"', body ++ ['"'], rfl, by decide, ?_⟩
    rw [List.append_assoc, List.singleton_append]
    simp [lexeme, standsAlone, splitString_closed hb]
  | @unclosed body rest hb he =>
    refine ⟨'"', body, rfl, by decide, ?_⟩
    simp [lexeme, standsAlone, splitString_unclosed hb he]
  | @comment body rest hb hr =>
    have hbody : ∀ c ∈ body, decide (c ≠ '\n') = true := by simpa using hb
    have hrest : ∀ c ∈ rest.head?, decide (c ≠ '\n') = false := by simpa using hr
    obtain ⟨ht, hd⟩ := takeWhile_append_of_head hbody hrest
    refine ⟨';', body, rfl, by decide, ?_⟩
    simp only [lexeme, standsAlone, ht, hd]
    simp
  | @bare c body rest hg hs hq hk hb hr =>
    have hbody : ∀ c ∈ body, (!endsBare c) = true := by simpa using hb
    have hrest : ∀ c ∈ rest.head?, (!endsBare c) = false := by simpa [Breaks] using hr
    obtain ⟨ht, hd⟩ := takeWhile_append_of_head hbody hrest
    have hc : c ≠ '~' := by rintro rfl; exact absurd hs (by decide)
    exact ⟨c, body, rfl, hg, by simp [lexeme, hc, hs, hq, hk, ht, hd]⟩

/-- No text starts with two lexemes. -/
theorem Cuts.unique {cs cs' rest rest' : List Char} (h : Cuts cs rest) (h' : Cuts cs' rest')
    (he : cs ++ rest = cs' ++ rest') : cs = cs' := by
  obtain ⟨c, r, rfl, -, hl⟩ := h.lexeme_eq
  obtain ⟨c', r', rfl, -, hl'⟩ := h'.lexeme_eq
  simp only [List.cons_append, List.cons.injEq] at he
  obtain ⟨rfl, hr⟩ := he
  rw [hr] at hl
  exact congrArg Prod.fst (hl.symm.trans hl')

/-! ## The tokens of a text -/

/-- Whether a position of the text lies in the token. -/
def Holds (t : Token) (position : Nat) : Prop := t.offset ≤ position ∧ position < t.stop

/-- What it is for tokens to be those of a text that starts at the given offset. Every token is a slice of the text at its
offset, a lexeme before what follows it; the tokens stand in order, apart from each other; and a character in none of them is a
gap character. -/
structure Tokenized (offset : Nat) (cs : List Char) (ts : List Token) : Prop where
  slice : ∀ t ∈ ts, t.chars ≠ [] ∧
    ∃ before after, cs = before ++ (t.chars ++ after) ∧ t.offset = offset + width before ∧ Cuts t.chars after
  ordered : ts.Pairwise fun t u => t.offset < u.offset ∧ t.stop ≤ u.offset
  gap : ∀ before c after, cs = before ++ c :: after → (∀ t ∈ ts, ¬Holds t (offset + width before)) → isGap c = true

/-- The front of a text that is not wider than another front is the front of that front. -/
theorem exists_append_of_width_le {cs ds before after : List Char} (h : cs ++ ds = before ++ after)
    (hw : width cs ≤ width before) : ∃ tail, before = cs ++ tail ∧ ds = tail ++ after := by
  rcases List.append_eq_append_iff.mp h with ⟨tail, hbefore, hds⟩ | ⟨tail, hcs, hafter⟩
  · exact ⟨tail, hbefore, hds⟩
  · cases tail with
    | nil => exact ⟨[], by rw [hcs, List.append_nil, List.append_nil], hafter.symm⟩
    | cons c tail =>
      have := Char.utf8Size_pos c
      rw [hcs, width_append, width_cons] at hw
      omega

/-- A token that is a lexeme starts with no gap. -/
theorem Cuts.ne_gap {cs rest : List Char} (h : Cuts cs rest) : ∃ c r, cs = c :: r ∧ isGap c = false := by
  obtain ⟨c, r, hcs, hg, -⟩ := h.lexeme_eq
  exact ⟨c, r, hcs, hg⟩

/-- An empty text has no tokens. -/
theorem tokenized_nil (offset : Nat) : Tokenized offset [] [] where
  slice := nofun
  ordered := .nil
  gap := by
    intro before c after h
    simp at h

/-- A gap character before a text leaves its tokens as they are. -/
theorem tokenized_gap {offset : Nat} {c : Char} {rest : List Char} {ts : List Token} (hc : isGap c = true) :
    Tokenized offset (c :: rest) ts ↔ Tokenized (offset + c.utf8Size) rest ts := by
  have hwidth : ∀ before, offset + width (c :: before) = offset + c.utf8Size + width before := by
    intro before
    rw [width_cons, Nat.add_assoc]
  constructor
  · intro h
    refine ⟨?_, h.ordered, ?_⟩
    · intro t ht
      obtain ⟨hne, before, after, hcs, hoffset, hcuts⟩ := h.slice t ht
      refine ⟨hne, ?_⟩
      cases before with
      | nil =>
        obtain ⟨d, r, hchars, hd⟩ := hcuts.ne_gap
        rw [hchars] at hcs
        cases hcs
        rw [hc] at hd
        cases hd
      | cons b before =>
        obtain ⟨rfl, hrest⟩ := List.cons.inj hcs
        exact ⟨before, after, hrest, by rw [hoffset, hwidth], hcuts⟩
    · intro before d after hrest hnone
      refine h.gap (c :: before) d after (by rw [hrest, List.cons_append]) ?_
      rwa [hwidth]
  · intro h
    refine ⟨?_, h.ordered, ?_⟩
    · intro t ht
      obtain ⟨hne, before, after, hrest, hoffset, hcuts⟩ := h.slice t ht
      exact ⟨hne, c :: before, after, by rw [hrest, List.cons_append], by rw [hoffset, hwidth], hcuts⟩
    · intro before d after hcs hnone
      cases before with
      | nil =>
        cases hcs
        exact hc
      | cons b before =>
        obtain ⟨rfl, hrest⟩ := List.cons.inj hcs
        refine h.gap before d after hrest ?_
        rwa [← hwidth]

/-- The token of a lexeme before a text leaves the tokens of the text as they are. -/
theorem tokenized_cons {t : Token} {rest : List Char} {ts : List Token} (hcuts : Cuts t.chars rest) :
    Tokenized t.offset (t.chars ++ rest) (t :: ts) ↔ Tokenized t.stop rest ts := by
  have hstop : t.stop = t.offset + width t.chars := rfl
  have hpos : 0 < width t.chars := by
    obtain ⟨c, r, hchars, -⟩ := hcuts.ne_gap
    have := Char.utf8Size_pos c
    rw [hchars, width_cons]
    omega
  have hwidth : ∀ before, t.offset + width (t.chars ++ before) = t.stop + width before := by
    intro before
    rw [hstop, width_append, Nat.add_assoc]
  constructor
  · intro h
    obtain ⟨hfirst, hordered⟩ := List.pairwise_cons.mp h.ordered
    refine ⟨?_, hordered, ?_⟩
    · intro u hu
      obtain ⟨hne, before, after, hcs, hoffset, hcuts'⟩ := h.slice u (List.mem_cons_of_mem t hu)
      have hw : width t.chars ≤ width before := by
        have := (hfirst u hu).2
        omega
      obtain ⟨tail, rfl, hrest⟩ := exists_append_of_width_le hcs hw
      exact ⟨hne, tail, after, hrest, by rw [hoffset, hwidth], hcuts'⟩
    · intro before c after hrest hnone
      refine h.gap (t.chars ++ before) c after (by rw [hrest, List.append_assoc]) ?_
      rw [hwidth]
      refine List.forall_mem_cons.mpr ⟨?_, hnone⟩
      rintro ⟨-, hlt⟩
      omega
  · intro h
    refine ⟨?_, ?_, ?_⟩
    · refine List.forall_mem_cons.mpr ⟨⟨?_, [], rest, rfl, rfl, hcuts⟩, ?_⟩
      · intro hnil
        rw [hnil, width_nil] at hpos
        omega
      · intro u hu
        obtain ⟨hne, before, after, hrest, hoffset, hcuts'⟩ := h.slice u hu
        exact ⟨hne, t.chars ++ before, after, by rw [hrest, List.append_assoc], by rw [hoffset, hwidth], hcuts'⟩
    · refine .cons ?_ h.ordered
      intro u hu
      obtain ⟨-, before, -, -, hoffset, -⟩ := h.slice u hu
      omega
    · intro before c after hcs hnone
      obtain ⟨hfirst, hmore⟩ := List.forall_mem_cons.mp hnone
      have hw : width t.chars ≤ width before := by
        rw [Holds] at hfirst
        omega
      obtain ⟨tail, rfl, hrest⟩ := exists_append_of_width_le hcs hw
      refine h.gap tail c after hrest ?_
      rwa [hwidth] at hmore

/-- The first token of a text that starts with no gap is the lexeme at its front: the character there has to lie in a token, and
no token comes before it. -/
theorem Tokenized.exists_cons {offset : Nat} {c : Char} {r : List Char} {ts : List Token} (hc : isGap c = false)
    (h : Tokenized offset (c :: r) ts) : ∃ t ts', ts = t :: ts' ∧ t.offset = offset ∧ t.chars = (lexeme c r).1 := by
  have hexists : ∃ t ∈ ts, Holds t offset := by
    by_contra hnone
    have hgap := h.gap [] c r rfl fun t ht hholds => hnone ⟨t, ht, hholds⟩
    rw [hc] at hgap
    cases hgap
  obtain ⟨t, ht, hle, -⟩ := hexists
  obtain ⟨-, before, after, hcs, hoffset, hcuts⟩ := h.slice t ht
  obtain ⟨rfl, -⟩ : before = [] ∧ t.offset = offset := by
    cases before with
    | nil => exact ⟨rfl, hoffset⟩
    | cons b before =>
      have := Char.utf8Size_pos b
      rw [width_cons] at hoffset
      omega
  have hchars : t.chars = (lexeme c r).1 :=
    (Cuts.unique (cuts_lexeme hc r) hcuts ((lexeme_append c r).trans hcs)).symm
  cases ts with
  | nil => cases ht
  | cons u ts' =>
    have hfirst := (List.pairwise_cons.mp h.ordered).1
    rcases List.mem_cons.mp ht with rfl | ht
    · exact ⟨t, ts', rfl, hoffset, hchars⟩
    · obtain ⟨-, before, -, -, hu, -⟩ := h.slice u List.mem_cons_self
      have := (hfirst t ht).1
      rw [width_nil] at hoffset
      omega

/-- The lexer finds the tokens of a text. -/
theorem tokenized_tokens (offset : Nat) (cs : List Char) : Tokenized offset cs (tokens offset cs) := by
  fun_induction tokens offset cs with
  | case1 offset => exact tokenized_nil offset
  | case2 offset c rest hg ih => exact (tokenized_gap hg).mpr ih
  | case3 offset c rest hg ih =>
    have hchars : (⟨String.ofList (lexeme c rest).1, offset⟩ : Token).chars = (lexeme c rest).1 := String.toList_ofList
    have hcuts := cuts_lexeme (by simpa using hg) rest
    rw [← hchars] at hcuts
    have hcons := (tokenized_cons hcuts).mpr (by rwa [Token.stop, Token.length, hchars])
    rwa [hchars, lexeme_append] at hcons

/-- No others are the tokens of the text. -/
theorem Tokenized.eq_tokens {offset : Nat} {cs : List Char} {ts : List Token} (h : Tokenized offset cs ts) :
    ts = tokens offset cs := by
  fun_induction tokens offset cs generalizing ts with
  | case1 offset =>
    cases ts with
    | nil => rfl
    | cons t ts =>
      obtain ⟨hne, before, after, hcs, -⟩ := h.slice t List.mem_cons_self
      simp [hne] at hcs
  | case2 offset c rest hg ih => exact ih ((tokenized_gap hg).mp h)
  | case3 offset c rest hg ih =>
    have hg' : isGap c = false := by simpa using hg
    obtain ⟨⟨text, _⟩, ts', rfl, rfl, hchars⟩ := h.exists_cons hg'
    have htext : String.ofList (lexeme c rest).1 = text := by rw [← hchars, Token.chars, String.ofList_toList]
    have hcuts := cuts_lexeme hg' rest
    rw [← lexeme_append c rest, ← hchars] at h
    rw [← hchars] at hcuts
    have htail := (tokenized_cons hcuts).mp h
    rw [Token.stop, Token.length, hchars] at htail
    rw [htext, ih htail]

end TinyLisp.Lexer

namespace TinyLisp

/-- Tokens are those of a text exactly when they are slices of it in order, each a lexeme before what follows it, with gap
characters only around them. The search for the pattern of tokens finds them, too. -/
theorem tokenize_cuts_source (source : String) :
    (∀ ts, ts = tokenize source ↔ Lexer.Tokenized 0 source.toList ts) ∧
      (∀ cs cs' rest rest', Lexer.Cuts cs rest → Lexer.Cuts cs' rest' → cs ++ rest = cs' ++ rest' → cs = cs') ∧
      tokenize source = Pattern.search 0 source.toList := by
  refine ⟨fun ts => ⟨?_, ?_⟩, ?_, Pattern.tokens_eq_search 0 source.toList⟩
  · rintro rfl
    exact Lexer.tokenized_tokens 0 source.toList
  · intro h
    exact h.eq_tokens
  · intro cs cs' rest rest' h h' he
    exact h.unique h' he

/-- A quote that opens no finished string takes everything up to a backslash before the end of the line, and the backslash is a
lexeme by itself. Of a tilde and an at sign only both together are cut off. -/
theorem tokenize_unfinished_string :
    Lexer.Tokenized 0 "~~@a\"b\\\nc".toList
        [⟨"~", 0⟩, ⟨"~@", 1⟩, ⟨"a", 3⟩, ⟨"\"b", 4⟩, ⟨"\\", 6⟩, ⟨"c", 8⟩] ∧
      ∀ cs rest, Lexer.Cuts cs rest → cs ++ rest = ['~', '@', 'a'] → cs = ['~', '@'] := by
  have htokens : [⟨"~", 0⟩, ⟨"~@", 1⟩, ⟨"a", 3⟩, ⟨"\"b", 4⟩, ⟨"\\", 6⟩, ⟨"c", 8⟩] = tokenize "~~@a\"b\\\nc" := by cbv
  obtain ⟨htokenized, hunique, -⟩ := tokenize_cuts_source "~~@a\"b\\\nc"
  refine ⟨(htokenized _).mp htokens, ?_⟩
  intro cs rest h he
  exact hunique cs ['~', '@'] rest ['a'] h (.splice ['a']) he

end TinyLisp

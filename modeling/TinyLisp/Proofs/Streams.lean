import Mathlib
import TinyLisp.Proofs.Lexemes
import TinyLisp.Proofs.Prefixes
import TinyLisp.Proofs.RoundTrip

/-!
# Texts one after the other

Texts that can be read are joined with a newline between two of them. `read_joined` says that their forms are read from the
joined text one after the other, and that the joined text is not read as a single form.

A newline ends every lexeme but a string literal that no quote closes, and no text with such a literal is read. So the tokens of
the joined text are those of the texts, moved to where the texts stand in it (`tokens_joined`). Reading a form takes nothing of
what follows it; what is left of its own tokens are comments, which are skipped before the next form (`readAll_of_chunks`).
-/

namespace TinyLisp

namespace Lexer

/-! ## A newline after a text -/

/-- A string literal that no quote closes. -/
def Unclosed (cs : List Char) : Prop := ∃ body, cs = '"' :: body ∧ StringBody body

/-- The first character of a text with a newline after it is that of the text, if there is one, or the newline. -/
theorem forall_head?_newline {P : Char → Prop} {cs : List Char} (h : ∀ c ∈ cs.head?, P c) (hn : P '\n') (ds : List Char) :
    ∀ c ∈ (cs ++ '\n' :: ds).head?, P c := by
  cases cs with
  | nil => simpa using hn
  | cons c cs => simpa using h

/-- A lexeme ends where it ends before a newline, too, unless it is an unclosed string literal: that might take the newline, or
the backslash before it. -/
theorem Cuts.newline {cs rest : List Char} (h : Cuts cs rest) (hu : ¬Unclosed cs) (ds : List Char) :
    Cuts cs (rest ++ '\n' :: ds) := by
  cases h with
  | splice => exact .splice _
  | @alone c rest hc hs =>
    refine .alone hc ?_
    rintro ⟨rfl, hat⟩
    have hne : ∀ d ∈ rest.head?, d ≠ '@' := by
      rintro d hd rfl
      exact hs ⟨rfl, hd⟩
    exact forall_head?_newline hne (by decide) ds '@' hat rfl
  | closed hb => exact .closed hb _
  | unclosed hb => exact absurd ⟨_, rfl, hb⟩ hu
  | comment hb hr => exact .comment hb (forall_head?_newline hr rfl ds)
  | bare hg hs hq hk hb hr => exact .bare hg hs hq hk hb (forall_head?_newline hr (by decide) ds)

/-- A lexeme is the first token of the text that it is cut off from. -/
theorem Cuts.tokens {cs rest : List Char} (h : Cuts cs rest) (offset : Nat) :
    tokens offset (cs ++ rest) = ⟨String.ofList cs, offset⟩ :: tokens (offset + width cs) rest := by
  obtain ⟨c, r, rfl, hg, hl⟩ := h.lexeme_eq
  rw [List.cons_append, tokens_lexeme hg, hl]

/-- The tokens of two texts with a newline between them are those of both, if the first leaves no string literal unclosed. -/
theorem tokens_newline {offset : Nat} {cs : List Char} (h : ∀ t ∈ tokens offset cs, ¬Unclosed t.chars) (ds : List Char) :
    tokens offset (cs ++ '\n' :: ds) = tokens offset cs ++ tokens (offset + (width cs + 1)) ds := by
  fun_induction tokens offset cs with
  | case1 offset => exact tokens_gap (by decide) offset ds
  | case2 offset c rest hg ih =>
    rw [List.cons_append, tokens_gap hg, ih h, width_cons]
    simp only [Nat.add_assoc]
  | case3 offset c rest hg ih =>
    obtain ⟨hfirst, hmore⟩ := List.forall_mem_cons.mp h
    rw [Token.chars, String.toList_ofList] at hfirst
    have hcuts : Cuts (lexeme c rest).1 ((lexeme c rest).2 ++ '\n' :: ds) :=
      (cuts_lexeme (by simpa using hg) rest).newline hfirst ds
    have hwidth : width (c :: rest) = width (lexeme c rest).1 + width (lexeme c rest).2 := by
      rw [← width_append, lexeme_append]
    have hcs : c :: rest ++ '\n' :: ds = (lexeme c rest).1 ++ ((lexeme c rest).2 ++ '\n' :: ds) := by
      rw [← List.append_assoc, lexeme_append]
    rw [hcs, hcuts.tokens, ih hmore, hwidth, List.cons_append]
    simp only [Nat.add_assoc]

/-- The tokens of a text that starts further on are those of the text, moved there. -/
theorem tokens_relocate (start offset : Nat) (cs : List Char) :
    tokens (start + offset) cs = (tokens offset cs).map (Token.relocate (start + ·)) := by
  fun_induction tokens offset cs with
  | case1 => rw [tokens, List.map_nil]
  | case2 offset c rest hg ih => rw [tokens_gap hg, Nat.add_assoc, ih]
  | case3 offset c rest hg ih =>
    rw [tokens_lexeme (by simpa using hg), Nat.add_assoc, ih, List.map_cons]
    rfl

end Lexer

/-! ## No unclosed literal is read -/

/-- After an even number of backslashes a quote is not taken along by a backslash. -/
theorem Quoted.not_stringBody_of_even {body : List Char} (h : trailingBackslashes body % 2 = 0) :
    ¬Lexer.StringBody (body ++ ['"']) := by
  intro hb
  generalize hcs : body ++ ['"'] = cs at hb
  induction hb generalizing body with
  | nil => exact List.append_ne_nil_of_right_ne_nil _ (by simp) hcs
  | plain hc hq _ ih =>
    cases body with
    | nil =>
      cases hcs
      exact hq rfl
    | cons b body =>
      cases hcs
      rw [trailingBackslashes_cons_of_ne hc] at h
      exact ih h rfl
  | pair _ _ ih =>
    rcases body with _ | ⟨b, _ | ⟨e, body⟩⟩
    · cases hcs
    · cases hcs
      cases h
    · cases hcs
      rw [trailingBackslashes_pair] at h
      exact ih h rfl

/-- A whole literal is closed. -/
theorem Lexer.not_unclosed_of_isComplete {cs : List Char} (h : Quoted.isComplete cs = true) : ¬Unclosed cs := by
  obtain ⟨inside, hinside⟩ := Option.isSome_iff_exists.mp h
  obtain ⟨rfl, heven⟩ := Quoted.inside?_eq_some_iff.mp hinside
  rintro ⟨body, hcs, hb⟩
  cases hcs
  exact Quoted.not_stringBody_of_even heven hb

/-- An atom is no unclosed literal. -/
theorem Atom.not_unclosed {t : Token} {f : Form} (h : Atom t f) : ¬Lexer.Unclosed t.chars := by
  rintro ⟨body, hchars, hb⟩
  cases h with
  | yes h | no h => simp [Token.chars, h] at hchars
  | int h =>
    obtain ⟨c, rest, hcs, hc⟩ := h.head
    rw [hchars] at hcs
    cases hcs
    simp at hc
  | keyword h => simp [hchars] at h
  | str h hi =>
    rw [hchars] at h
    cases h
    exact Quoted.not_stringBody_of_even hi.even hb
  | symbol _ _ _ _ hq => simp [hchars] at hq

/-- Tokens that a form is derived from are delimiters and atoms. -/
theorem Derives.isDelimiter_or_atom {ts : List Token} {f : Form} (h : Derives ts f) :
    ∀ t ∈ ts, Shape.IsDelimiter t.chars ∨ ∃ g, Atom t g := by
  induction h with
  | atom h => exact List.forall_mem_singleton.mpr (.inr ⟨_, h⟩)
  | seq ho hc hm ih =>
    refine List.forall_mem_cons.mpr ⟨.inl ⟨_, .inl ho⟩, List.forall_mem_append.mpr ⟨?_, ?_⟩⟩
    · intro t ht
      obtain ⟨p, hp, ht⟩ := List.mem_flatMap.mp ht
      exact ih p hp t ht
    · exact List.forall_mem_singleton.mpr (.inl ⟨_, .inr hc⟩)
  | map ho hc hk hv ihk ihv =>
    refine List.forall_mem_cons.mpr ⟨.inl ⟨_, .inl ho⟩, List.forall_mem_append.mpr ⟨?_, ?_⟩⟩
    · intro t ht
      obtain ⟨p, hp, ht⟩ := List.mem_flatMap.mp ht
      rcases List.mem_append.mp ht with ht | ht
      · exact ihk p hp t ht
      · exact ihv p hp t ht
    · exact List.forall_mem_singleton.mpr (.inl ⟨_, .inr hc⟩)

/-- A text that is read leaves no string literal unclosed. -/
theorem not_unclosed_of_readText {limit : Nat} {source : String} {f : Form} (h : readText limit source = .ok f) :
    ∀ t ∈ tokenize source, ¬Lexer.Unclosed t.chars := by
  intro t ht
  cases hc : t.isComment with
  | true =>
    rintro ⟨body, hchars, -⟩
    simp [Token.isComment, hchars] at hc
  | false =>
    have hmem : t ∈ content (tokenize source) := List.mem_filter.mpr ⟨ht, by simpa using hc⟩
    rcases (readTokens_eq_ok_iff.mp h).1.isDelimiter_or_atom t hmem with ⟨shape, hd⟩ | ⟨g, ha⟩
    · rintro ⟨body, hchars, -⟩
      rcases shape with (_ | _) | _ <;> simp [hchars, Shape.opening, Shape.closing] at hd
    · exact ha.not_unclosed

/-! ## Tokens after tokens -/

/-- Comments before tokens change nothing while collections are open. -/
theorem Pass.scan_append_comments {limit : Nat} {before : List Token} (h : content before = []) (stack : List Frame)
    (ts : List Token) : scan limit (.reading stack) (before ++ ts) = scan limit (.reading stack) ts := by
  rw [content, List.filter_eq_nil_iff] at h
  have hskip : skipComments (before ++ ts) = skipComments ts := List.dropWhile_append_of_pos (by simpa using h)
  rw [← scan_skipComments, hskip, scan_skipComments]

/-- The content of tokens is taken without a look at offsets. -/
theorem content_relocate (g : Nat → Nat) (ts : List Token) :
    content (ts.map (Token.relocate g)) = (content ts).map (Token.relocate g) := List.filter_map

/-- Tokens are read without a look at offsets. -/
theorem readTokens_relocate (g : Nat → Nat) (limit : Nat) (ts : List Token) :
    readTokens limit (ts.map (Token.relocate g)) = relocateResult g (Form.relocate g) (readTokens limit ts) := by
  rw [Pass.readTokens_eq_run, Pass.readTokens_eq_run, content_relocate, Pass.run_relocate]

/-- Tokens that are read are not comments only. -/
theorem exists_head_content {limit : Nat} {ts : List Token} {f : Form} (h : readTokens limit ts = .ok f) :
    ∃ t, (content ts).head? = some t := by
  cases hcontent : content ts with
  | nil =>
    rw [Pass.readTokens_eq_run, hcontent] at h
    cases h
  | cons t us => exact ⟨t, rfl⟩

/-- Of tokens that are read, only comments are left after the form. -/
theorem exists_scan_of_readTokens {limit : Nat} {ts : List Token} {f : Form} (h : readTokens limit ts = .ok f) :
    ∃ rest, Pass.scan limit (.reading []) ts = .ok (f, rest) ∧ content rest = [] := by
  rw [Pass.scan_start]
  unfold readTokens at h
  split at h
  · cases h
  · next f' rest hread =>
    split at h
    · next hs =>
      cases h
      exact ⟨rest, by rw [hread]; rfl, content_of_skipComments_nil hs⟩
    · cases h

/-- Anything but comments after tokens that are read is trailing input. -/
theorem readTokens_append {limit : Nat} {ts us : List Token} {f : Form} {t : Token} (h : readTokens limit ts = .ok f)
    (ht : (content us).head? = some t) : readTokens limit (ts ++ us) = .error (.trailingInput t) := by
  obtain ⟨hd, hn⟩ := readTokens_eq_ok_iff.mp h
  obtain ⟨vs, hvs⟩ := List.head?_eq_some_iff.mp ht
  rw [Pass.readTokens_eq_run, content_append, hvs, Pass.run, Pass.passes_of_derives hd limit [] _ (by simpa using hn)]
  rfl

/-- Reading all forms under a cursor reads the first, and goes on where the cursor stands then. -/
theorem Cursor.readAll_eq (limit : Nat) (c : Cursor) :
    c.readAll limit =
      match c.read limit with
      | .error e => ([], e)
      | .ok (f, d) => ((f, d) :: (d.readAll limit).1, (d.readAll limit).2) := by
  rw [Cursor.readAll, Cursor.read]
  cases readForm limit 0 c.ahead <;> rfl

/-- Lists of tokens that are read by themselves are read one after the other where they stand in a row. Comments before them
change nothing. -/
theorem readAll_of_chunks {limit : Nat} {chunks : List (List Token × Form)} (h : ∀ p ∈ chunks, readTokens limit p.1 = .ok p.2)
    {before : List Token} (hb : content before = []) {c : Cursor} (hc : c.ahead = before ++ chunks.flatMap (·.1)) :
    (c.readAll limit).1.map Prod.fst = chunks.map Prod.snd ∧ (c.readAll limit).2 = .emptyInput := by
  induction chunks generalizing before c with
  | nil =>
    have hread : c.read limit = .error .emptyInput := by
      rw [Cursor.read_eq_error_iff, hc, Pass.scan_append_comments hb]
      rfl
    rw [Cursor.readAll_eq, hread]
    exact ⟨rfl, rfl⟩
  | cons p chunks ih =>
    obtain ⟨hp, hchunks⟩ := List.forall_mem_cons.mp h
    obtain ⟨rest, hscan, hrest⟩ := exists_scan_of_readTokens hp
    have hread : c.read limit = .ok (p.2, c.upTo (rest ++ chunks.flatMap (·.1))) := by
      refine Cursor.read_eq_ok_iff.mpr ⟨_, ?_, rfl⟩
      rw [hc, Pass.scan_append_comments hb, List.flatMap_cons]
      exact Pass.scan_append hscan _
    obtain ⟨hforms, hend⟩ := ih hchunks hrest (c := c.upTo (rest ++ chunks.flatMap (·.1))) rfl
    rw [Cursor.readAll_eq, hread]
    exact ⟨congrArg (p.2 :: ·) hforms, hend⟩

/-! ## Texts after texts -/

/-- The tokens and the form of each text, where the text stands among texts that are joined with a newline between two of
them. -/
def placed (offset : Nat) : List (String × Form) → List (List Token × Form)
  | [] => []
  | (source, f) :: more =>
    ((tokenize source).map (Token.relocate (offset + ·)), f.relocate (offset + ·)) ::
      placed (offset + (source.utf8ByteSize + 1)) more

/-- Tokens and forms are moved together. -/
theorem readTokens_placed {limit : Nat} {sources : List (String × Form)} (h : ∀ s ∈ sources, readText limit s.1 = .ok s.2)
    (offset : Nat) : ∀ p ∈ placed offset sources, readTokens limit p.1 = .ok p.2 := by
  induction sources generalizing offset with
  | nil => nofun
  | cons s sources ih =>
    obtain ⟨hs, hsources⟩ := List.forall_mem_cons.mp h
    refine List.forall_mem_cons.mpr ⟨?_, ih hsources _⟩
    rw [readTokens_relocate, ← readText, hs]
    rfl

/-- Forms that are moved stay the same. -/
theorem same_placed (offset : Nat) (sources : List (String × Form)) :
    List.Forall₂ (fun f (s : String × Form) => f.same s.2 = true) ((placed offset sources).map Prod.snd) sources := by
  induction sources generalizing offset with
  | nil => exact .nil
  | cons s sources ih =>
    exact .cons (same_of_normal_eq (Form.normal_relocate _ s.2)) (ih _)

/-- The tokens of a text where it stands are those of the text, moved there. -/
theorem tokens_toList (offset : Nat) (source : String) :
    Lexer.tokens offset source.toList = (tokenize source).map (Token.relocate (offset + ·)) :=
  Lexer.tokens_relocate offset 0 source.toList

/-- The tokens of a text that can be read stay its tokens when a newline and more follow. -/
theorem tokens_line {limit : Nat} {source : String} {f : Form} (h : readText limit source = .ok f) (offset : Nat)
    (ds : List Char) :
    Lexer.tokens offset (source.toList ++ '\n' :: ds) =
      (tokenize source).map (Token.relocate (offset + ·)) ++ Lexer.tokens (offset + (source.utf8ByteSize + 1)) ds := by
  have hclosed : ∀ t ∈ Lexer.tokens offset source.toList, ¬Lexer.Unclosed t.chars := by
    rw [tokens_toList]
    exact List.forall_mem_map.mpr (not_unclosed_of_readText h)
  rw [Lexer.tokens_newline hclosed, width_toList, tokens_toList]

/-- The tokens of joined texts are those of the texts. -/
theorem tokens_joined {limit : Nat} {sources : List (String × Form)} (h : ∀ s ∈ sources, readText limit s.1 = .ok s.2)
    (offset : Nat) :
    Lexer.tokens offset ("\n".intercalate (sources.map Prod.fst)).toList = (placed offset sources).flatMap (·.1) := by
  induction sources generalizing offset with
  | nil => rw [List.map_nil, String.intercalate_nil, String.toList_empty, Lexer.tokens, placed, List.flatMap_nil]
  | cons s sources ih =>
    obtain ⟨hs, hsources⟩ := List.forall_mem_cons.mp h
    cases sources with
    | nil => rw [List.map_singleton, String.intercalate_singleton, placed, placed, List.flatMap_singleton, tokens_toList]
    | cons s' sources =>
      have hjoin : ("\n".intercalate ((s :: s' :: sources).map Prod.fst)).toList =
          s.1.toList ++ '\n' :: ("\n".intercalate ((s' :: sources).map Prod.fst)).toList := by
        simp [String.intercalate_cons_cons]
      rw [hjoin, tokens_line hs, ih hsources]
      rfl

/-- Texts that can be read are read one after the other from the text that joins them with newlines, and then the input is empty.
Each form is the one that is read from its text, moved to where the text stands, and so the same form. Read as a single form,
two texts or more leave trailing input: the first token of the second text that is no comment. -/
theorem read_joined {limit : Nat} {sources : List (String × Form)} (h : ∀ s ∈ sources, readText limit s.1 = .ok s.2) :
    let joined := "\n".intercalate (sources.map Prod.fst)
    let read := (Cursor.start (tokenize joined)).readAll limit
    read.1.map Prod.fst = (placed 0 sources).map Prod.snd ∧
      List.Forall₂ (fun r s => r.1.same s.2 = true) read.1 sources ∧
      read.2 = .emptyInput ∧
      ∀ s₁ s₂ more, sources = s₁ :: s₂ :: more → ∃ t, (content (tokenize s₂.1)).head? = some t ∧
        readText limit joined = .error (.trailingInput (t.relocate (s₁.1.utf8ByteSize + 1 + ·))) := by
  intro joined read
  have htokens : tokenize joined = (placed 0 sources).flatMap (·.1) := tokens_joined h 0
  have hplaced := readTokens_placed h 0
  obtain ⟨hforms, hend⟩ : read.1.map Prod.fst = (placed 0 sources).map Prod.snd ∧ read.2 = .emptyInput :=
    readAll_of_chunks hplaced (show content [] = [] from rfl) htokens
  refine ⟨hforms, ?_, hend, ?_⟩
  · have hsame := same_placed 0 sources
    rw [← hforms] at hsame
    exact List.forall₂_map_left_iff.mp hsame
  · rintro s₁ s₂ more rfl
    obtain ⟨hfirst, -⟩ := List.forall_mem_cons.mp hplaced
    obtain ⟨t, ht⟩ := exists_head_content (h s₂ (by simp))
    refine ⟨t, ht, ?_⟩
    rw [readText, htokens, placed, List.flatMap_cons]
    refine readTokens_append hfirst ?_
    rw [Nat.zero_add, placed, List.flatMap_cons, content_append, content_relocate, List.head?_append, List.head?_map, ht]
    rfl

/-- The comment at the end of the first text does not reach the second, and the literal in the second keeps its newline. -/
theorem read_joined_comment_and_string :
    let joined := "(:a) ; b\n; c\n\"d\ne\""
    ((Cursor.start (tokenize joined)).readAll 1).1.map Prod.fst =
        [.seq .list ⟨some ⟨"(", 0⟩, some ⟨")", 3⟩⟩ [.keyword ⟨.shared, "a"⟩ (some ⟨":a", 1⟩)],
          .str "d\ne" (some ⟨"\"d\ne\"", 13⟩)] ∧
      readText 1 joined = .error (.trailingInput ⟨"\"d\ne\"", 13⟩) := by
  intro joined
  have hfirst : readText 1 "(:a) ; b" =
      .ok (.seq .list ⟨some ⟨"(", 0⟩, some ⟨")", 3⟩⟩ [.keyword ⟨.shared, "a"⟩ (some ⟨":a", 1⟩)]) := by cbv
  have hsecond : readText 1 "; c\n\"d\ne\"" = .ok (.str "d\ne" (some ⟨"\"d\ne\"", 4⟩)) := by cbv
  have hhead : (content (tokenize "; c\n\"d\ne\"")).head? = some ⟨"\"d\ne\"", 4⟩ := by cbv
  have hjoined : "\n".intercalate ["(:a) ; b", "; c\n\"d\ne\""] = joined := by cbv
  have hsources : ∀ s ∈ [("(:a) ; b", _), ("; c\n\"d\ne\"", _)], readText 1 s.1 = .ok s.2 :=
    List.forall_mem_cons.mpr ⟨hfirst, List.forall_mem_singleton.mpr hsecond⟩
  obtain ⟨hforms, -, -, htrailing⟩ := read_joined hsources
  obtain ⟨t, ht, hread⟩ := htrailing _ _ [] rfl
  rw [hhead] at ht
  cases ht
  rw [← hjoined]
  exact ⟨hforms, hread⟩

end TinyLisp

import TinyLisp.Proofs.Streams

/-!
# Layout

What stands around the tokens of a text does not matter, as long as it keeps them apart. `Spacing` says what may stand there, and
an `Arrangement` is a row of texts with spacing around them. The texts of the tokens of a source, comments left out, can be
arranged in any way: if no string literal of the source is unfinished, each of them is cut off again where it stands
(`Arrangement.texts_content`). Reading looks at nothing but these texts, so every arrangement is read as the source is
(`read_arrangement`).
-/

namespace TinyLisp

/-! ## Arrangements -/

/-- What may stand around tokens: gap characters, and comments that a newline closes. -/
inductive Spacing : List Char → Prop where
  | nil : Spacing []
  | gap {c : Char} {cs : List Char} (hc : isGap c = true) (h : Spacing cs) : Spacing (c :: cs)
  | comment {body cs : List Char} (hb : ∀ c ∈ body, c ≠ '\n') (h : Spacing cs) : Spacing (';' :: (body ++ '\n' :: cs))

/-- Texts in a row, each with the spacing after it, and the spacing before the first one. Only the last text may have nothing
after it. -/
structure Arrangement where
  before : List Char
  items : List (String × List Char)
  spacing_before : Spacing before
  spacing_after : ∀ i ∈ items, Spacing i.2
  apart : ∀ i ∈ items.dropLast, i.2 ≠ []

/-- The texts that are arranged. -/
def Arrangement.texts (a : Arrangement) : List String := a.items.map Prod.fst

/-- Texts and the spacing after each of them, written in a row. -/
def written (items : List (String × List Char)) : List Char := items.flatMap fun i => i.1.toList ++ i.2

/-- The source text that the arrangement makes. -/
def Arrangement.source (a : Arrangement) : String := String.ofList (a.before ++ written a.items)

/-! ## Spacing between tokens -/

namespace Lexer

/-- Spacing ends the lexeme before it. Where there is none, what comes next has to. -/
theorem breaks_spacing {cs rest : List Char} (h : Spacing cs) (hr : cs ≠ [] ∨ Breaks rest) : Breaks (cs ++ rest) := by
  cases h with
  | nil => exact hr.resolve_left fun hne => hne rfl
  | gap hc => simp [Breaks, endsBare, hc]
  | comment => simp [Breaks, endsBare]

/-- There is no content in spacing. -/
theorem content_spacing {cs : List Char} (h : Spacing cs) (offset : Nat) (rest : List Char) :
    content (tokens offset (cs ++ rest)) = content (tokens (offset + width cs) rest) := by
  induction h generalizing offset with
  | nil => rfl
  | gap hc _ ih => rw [List.cons_append, tokens_gap hc, ih, width_cons, Nat.add_assoc]
  | @comment body cs hb _ ih =>
    have hcuts : Cuts (';' :: body) ('\n' :: (cs ++ rest)) := .comment hb (by simp)
    have hcs : ';' :: (body ++ '\n' :: cs) ++ rest = ';' :: body ++ '\n' :: (cs ++ rest) := by simp
    have hcomment : Token.isComment ⟨String.ofList (';' :: body), offset⟩ = true := by simp [Token.isComment, Token.chars]
    rw [hcs, hcuts.tokens, content_comment hcomment, tokens_gap (by decide), ih]
    simp only [width_cons, width_append]
    congr 2
    omega

/-- A lexeme that is neither a comment nor an unfinished string literal is one before any text that ends lexemes. -/
theorem Cuts.of_breaks {cs after rest : List Char} (h : Cuts cs after) (hk : cs.head? ≠ some ';') (hu : ¬Unclosed cs)
    (hr : Breaks rest) : Cuts cs rest := by
  cases h with
  | splice => exact .splice _
  | alone hc =>
    refine .alone hc ?_
    rintro ⟨-, hat⟩
    exact absurd (hr '@' hat) (by decide)
  | closed hb => exact .closed hb _
  | unclosed hb => exact absurd ⟨_, rfl, hb⟩ hu
  | comment => exact absurd rfl hk
  | bare hg hs hq hc hb => exact .bare hg hs hq hc hb hr

/-- A text that can be arranged: a lexeme, which is neither a comment nor an unfinished string literal. -/
def Arrangeable (cs : List Char) : Prop := (∃ after, Cuts cs after) ∧ cs.head? ≠ some ';' ∧ ¬Unclosed cs

/-- Lexemes in a row are cut off one by one where spacing keeps them apart. -/
theorem texts_content_written {items : List (String × List Char)} (htexts : ∀ i ∈ items, Arrangeable i.1.toList)
    (hspacing : ∀ i ∈ items, Spacing i.2) (happart : ∀ i ∈ items.dropLast, i.2 ≠ []) (offset : Nat) :
    (content (tokens offset (written items))).map Token.text = items.map Prod.fst := by
  induction items generalizing offset with
  | nil =>
    rw [written, List.flatMap_nil, tokens]
    rfl
  | cons i items ih =>
    obtain ⟨⟨⟨after, hcuts⟩, hk, hu⟩, htexts⟩ := List.forall_mem_cons.mp htexts
    obtain ⟨hi, hspacing⟩ := List.forall_mem_cons.mp hspacing
    have hbreaks : Breaks (i.2 ++ written items) := by
      refine breaks_spacing hi ?_
      cases items with
      | nil => exact .inr breaks_nil
      | cons j items => exact .inl (happart i List.mem_cons_self)
    have hmore : ∀ j ∈ items.dropLast, j.2 ≠ [] := by
      intro j hj
      cases items with
      | nil => cases hj
      | cons k items => exact happart j (List.mem_cons_of_mem i hj)
    have hcomment : Token.isComment ⟨String.ofList i.1.toList, offset⟩ = false := by
      simpa [Token.isComment, Token.chars] using hk
    have hwritten : written (i :: items) = i.1.toList ++ (i.2 ++ written items) := by
      rw [written, List.flatMap_cons, List.append_assoc]
      rfl
    rw [hwritten, (hcuts.of_breaks hk hu hbreaks).tokens, content_cons hcomment, content_spacing hi, List.map_cons,
      ih htexts hspacing hmore, String.ofList_toList, List.map_cons]

end Lexer

/-- The content of an arrangement of lexemes is these lexemes again. -/
theorem Arrangement.texts_content (a : Arrangement) (h : ∀ text ∈ a.texts, Lexer.Arrangeable text.toList) :
    (content (tokenize a.source)).map Token.text = a.texts := by
  have hitems : ∀ i ∈ a.items, Lexer.Arrangeable i.1.toList := fun i hi => h i.1 (List.mem_map_of_mem hi)
  rw [tokenize, Arrangement.source, String.toList_ofList, Lexer.content_spacing a.spacing_before]
  exact Lexer.texts_content_written hitems a.spacing_after a.apart _

/-! ## Reading -/

/-- Two results of reading that differ in nothing but offsets: forms that are the same and are printed alike, or reports of the
same kind with the same payload. -/
def SameReading : Except ReadError Form → Except ReadError Form → Prop
  | .ok f, .ok g => (f == g) = true ∧ f.unplaced = g.unplaced ∧ f.print .readable = g.print .readable
  | .error e, .error e' => e.relocate (fun _ => 0) = e'.relocate (fun _ => 0)
  | _, _ => False

/-- Results that are the same without their offsets differ in nothing else. -/
theorem sameReading_of_relocateResult {r r' : Except ReadError Form}
    (h : relocateResult (fun _ => 0) Form.unplaced r = relocateResult (fun _ => 0) Form.unplaced r') : SameReading r r' := by
  cases r with
  | error e =>
    cases r' with
    | error e' => exact Except.error.inj h
    | ok g => cases h
  | ok f =>
    cases r' with
    | error e' => cases h
    | ok g =>
      have heq : f.unplaced = g.unplaced := Except.ok.inj h
      have hnormal : f.normal = g.normal := by
        rw [← Form.normal_relocate (fun _ => 0) f, ← Form.unplaced, heq, Form.unplaced, Form.normal_relocate]
      exact ⟨same_of_normal_eq hnormal, heq, print_eq_of_normal_eq hnormal .readable⟩

/-- Tokens with the same texts are read alike. -/
theorem sameReading_of_texts {limit : Nat} {source source' : String}
    (h : (content (tokenize source)).map Token.text = (content (tokenize source')).map Token.text) :
    SameReading (readText limit source) (readText limit source') := by
  have hunplaced : ∀ ts : List Token, ts.map (Token.relocate fun _ => 0) = (ts.map Token.text).map (⟨·, 0⟩) := by
    intro ts
    rw [List.map_map]
    rfl
  refine sameReading_of_relocateResult ?_
  rw [readText, readText, Pass.readTokens_eq_run, Pass.readTokens_eq_run]
  refine (Pass.run_relocate _ limit _).symm.trans (Eq.trans ?_ (Pass.run_relocate _ limit _))
  rw [hunplaced, hunplaced, h]

/-- A source in which no string literal is unfinished is read as every arrangement of the texts of its tokens is, comments left
out: both give the same form, printed alike, or the same report, up to offsets. -/
theorem read_arrangement (limit : Nat) (source : String)
    (hclosed : ∀ t ∈ tokenize source, t.chars.head? = some '"' → Quoted.isComplete t.chars = true) (a : Arrangement)
    (ha : a.texts = (content (tokenize source)).map Token.text) :
    SameReading (readText limit a.source) (readText limit source) := by
  refine sameReading_of_texts ?_
  rw [← ha]
  refine a.texts_content ?_
  rw [ha]
  refine List.forall_mem_map.mpr fun t ht => ?_
  obtain ⟨ht, hc⟩ := List.mem_filter.mp ht
  obtain ⟨-, -, after, -, -, hcuts⟩ := (Lexer.tokenized_tokens 0 source.toList).slice t ht
  have hk : t.chars.head? ≠ some ';' := by simpa [Token.isComment] using hc
  refine ⟨⟨after, hcuts⟩, hk, ?_⟩
  rintro ⟨body, hchars, hb⟩
  have hquote : t.chars.head? = some '"' := by rw [Token.chars, hchars, List.head?_cons]
  exact Lexer.not_unclosed_of_isComplete (hclosed t ht hquote) ⟨body, hchars, hb⟩

/-- Two markers that stay apart, a string literal between them and a symbol, and a comment that touches the symbol: another layout
makes the same vector. -/
theorem read_arrangement_of_markers :
    SameReading (readText 1 ",[ ~;\"\n@\t\"b\" c,]\n") (readText 1 "[~ @\"b\"c;]\n]") ∧
      (readText 1 "[~ @\"b\"c;]\n]").isOk = true := by
  have hgap : ∀ c, isGap c = true → Spacing [c] := fun c hc => .gap hc .nil
  have hafter : ∀ i ∈ [("[", [' ']), ("~", [';', '"', '\n']), ("@", ['\t']), ("\"b\"", [' ']), ("c", [',']), ("]", ['\n'])],
      Spacing i.2 := by
    simp only [List.forall_mem_cons]
    exact ⟨hgap ' ' (by cbv), @Spacing.comment ['"'] [] (by simp) .nil, hgap '\t' (by cbv), hgap ' ' (by cbv),
      hgap ',' (by cbv), hgap '\n' (by cbv), nofun⟩
  have hclosed : ∀ t ∈ tokenize "[~ @\"b\"c;]\n]", t.chars.head? = some '"' → Quoted.isComplete t.chars = true := by
    have htokens : tokenize "[~ @\"b\"c;]\n]" =
        [⟨"[", 0⟩, ⟨"~", 1⟩, ⟨"@", 3⟩, ⟨"\"b\"", 4⟩, ⟨"c", 7⟩, ⟨";]", 8⟩, ⟨"]", 11⟩] := by cbv
    rw [htokens]
    decide +kernel
  have hread := read_arrangement 1 "[~ @\"b\"c;]\n]" hclosed ⟨[','], _, hgap ',' (by cbv), hafter, by decide⟩ (by cbv)
  have hsource : Arrangement.source ⟨[','], _, hgap ',' (by cbv), hafter, by decide⟩ = ",[ ~;\"\n@\t\"b\" c,]\n" := by cbv
  rw [hsource] at hread
  exact ⟨hread, by cbv⟩

end TinyLisp

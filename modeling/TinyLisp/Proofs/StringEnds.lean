import TinyLisp.Proofs.Streams

/-!
# Where a string ends

Three scans decide where a string ends. The lexer goes forward over pairs of a backslash and a character and over plain
characters, up to a quote that closes the string or to where neither stands. The test for a whole literal goes back from the last
character over a run of backslashes. And decoding goes forward over the three escapes that there are.

`literal_ends_agree` says that they agree. The test accepts a string token exactly when the run of pairs and plain characters ends
before a quote, which the lexer takes; a text that the test accepts has two quotes with something to cut out between them; and
decoding that never comes to a backslash with nothing after it.
-/

namespace TinyLisp

/-! ## Cutting a text at bytes -/

/-- The part of a text between two positions that are counted in bytes. There is none where the positions are out of order, beyond
the end of the text or inside of a character. -/
def slice? (cs : List Char) (start stop : Nat) : Option (List Char) :=
  if start ≤ stop then
    (dropWidth start cs).bind fun tail =>
      (dropWidth (stop - start) tail).map fun after => tail.take (tail.length - after.length)
  else none

/-- A part is cut out exactly where that many bytes of characters stand before it and in it. -/
theorem slice?_eq_some_iff {cs part : List Char} {start stop : Nat} :
    slice? cs start stop = some part ↔
      ∃ before after, cs = before ++ (part ++ after) ∧ width before = start ∧ start + width part = stop := by
  unfold slice?
  constructor
  · intro h
    split at h
    · next hle =>
      obtain ⟨tail, htail, h⟩ := Option.bind_eq_some_iff.mp h
      obtain ⟨after, hafter, rfl⟩ := Option.map_eq_some_iff.mp h
      obtain ⟨before, rfl, hbefore⟩ := dropWidth_eq_some_iff.mp htail
      obtain ⟨part, rfl, hpart⟩ := dropWidth_eq_some_iff.mp hafter
      refine ⟨before, after, ?_, hbefore, ?_⟩
      · simp
      · simp only [List.length_append, Nat.add_sub_cancel, List.take_left']
        omega
    · cases h
  · rintro ⟨before, after, rfl, rfl, rfl⟩
    have htail : dropWidth (width before) (before ++ (part ++ after)) = some (part ++ after) :=
      dropWidth_eq_some_iff.mpr ⟨before, rfl, rfl⟩
    have hafter : dropWidth (width part) (part ++ after) = some after := dropWidth_eq_some_iff.mpr ⟨part, rfl, rfl⟩
    simp [htail, hafter]

/-! ## The forward scan of the lexer -/

namespace Lexer

/-- The inside of a string lexeme ends with an even number of backslashes: each takes a character along. -/
theorem StringBody.even {body : List Char} (h : StringBody body) : Quoted.trailingBackslashes body % 2 = 0 := by
  induction h with
  | nil => rfl
  | plain hb _ _ ih => rw [Quoted.trailingBackslashes_cons_of_ne hb, ih]
  | pair _ _ ih => rw [Quoted.trailingBackslashes_pair, ih]

/-- A string lexeme that a quote closes is a whole literal. -/
theorem isComplete_closed {body : List Char} (h : StringBody body) : Quoted.isComplete ('"' :: (body ++ ['"'])) = true := by
  rw [Quoted.isComplete, Quoted.inside?_eq_some_iff.mpr ⟨rfl, h.even⟩]
  rfl

/-- A lexeme that starts with a quote is a string lexeme, closed or not. -/
theorem Cuts.of_quote {cs rest : List Char} (h : Cuts ('"' :: cs) rest) :
    (∃ body, StringBody body ∧ cs = body ++ ['"']) ∨ (StringBody cs ∧ StringEnd rest) := by
  cases h with
  | alone hc => cases hc
  | closed hb => exact .inl ⟨_, hb, rfl⟩
  | unclosed hb he => exact .inr ⟨hb, he⟩
  | bare _ _ hq => exact absurd rfl hq

end Lexer

namespace Pattern

/-- The run of pairs and plain characters goes over the inside of a string lexeme, up to where neither stands. -/
theorem first?_many_stringUnit {body rest : List Char} (h : Lexer.StringBody body) (hr : stringUnit.first? rest = none) :
    (many stringUnit).first? (body ++ rest) = some rest := by
  induction h with
  | nil => exact first?_many_of_none hr
  | @plain c cs hb hq _ ih =>
    have hstep : stringUnit.first? (c :: (cs ++ rest)) = some (cs ++ rest) := by simp [stringUnit, hb, hq]
    rw [List.cons_append, first?_many_of_some hstep (by simp), ih]
  | @pair e cs he _ ih =>
    have hstep : stringUnit.first? ('\\' :: e :: (cs ++ rest)) = some (cs ++ rest) := by simp [stringUnit, he]
    rw [List.cons_append, List.cons_append, first?_many_of_some hstep (by simp only [List.length_cons]; omega), ih]

/-- Neither stands at a quote. -/
theorem first?_stringUnit_quote (rest : List Char) : stringUnit.first? ('"' :: rest) = none := by simp [stringUnit]

/-- Nor does one where a string lexeme ends without a quote. -/
theorem first?_stringUnit_of_stringEnd {rest : List Char} (h : Lexer.StringEnd rest) : stringUnit.first? rest = none := by
  cases h <;> simp [stringUnit]

end Pattern

/-- A string lexeme is a whole literal exactly when the run of pairs and plain characters after its opening quote ends before
another quote. That quote is then the last character of the lexeme. -/
theorem Lexer.Cuts.isComplete_iff {cs rest : List Char} (h : Cuts ('"' :: cs) rest) :
    Quoted.isComplete ('"' :: cs) = true ↔
      (Pattern.many Pattern.stringUnit).first? (cs ++ rest) = some ('"' :: rest) := by
  rcases h.of_quote with ⟨body, hb, rfl⟩ | ⟨hb, he⟩
  · have hrun := Pattern.first?_many_stringUnit hb (Pattern.first?_stringUnit_quote rest)
    rw [List.append_assoc, List.singleton_append]
    exact iff_of_true (isComplete_closed hb) hrun
  · have hrun := Pattern.first?_many_stringUnit hb (Pattern.first?_stringUnit_of_stringEnd he)
    refine iff_of_false (fun hc => not_unclosed_of_isComplete hc ⟨cs, rfl, hb⟩) ?_
    rw [hrun]
    intro heq
    have hlen := congrArg List.length (Option.some.inj heq)
    simp at hlen

/-- After the opening quote of a string lexeme the pattern takes the rest of the lexeme. -/
theorem Lexer.Cuts.first?_stringRest {cs rest : List Char} (h : Cuts ('"' :: cs) rest) :
    Pattern.stringRest.first? (cs ++ rest) = some rest := by
  rw [Pattern.first?_stringRest]
  rcases h.of_quote with ⟨body, hb, rfl⟩ | ⟨hb, he⟩
  · rw [List.append_assoc, List.singleton_append, splitString_closed hb]
  · rw [splitString_unclosed hb he]

namespace Quoted

/-! ## The test for a whole literal and decoding -/

/-- The inside of a whole literal is what stands between its first and its last byte. -/
theorem slice?_of_inside? {cs body : List Char} (h : inside? cs = some body) :
    2 ≤ width cs ∧ slice? cs 1 (width cs - 1) = some body := by
  obtain ⟨rfl, -⟩ := inside?_eq_some_iff.mp h
  have hquote : Char.utf8Size '"' = 1 := rfl
  have hwidth : width ('"' :: (body ++ ['"'])) = width body + 2 := by
    simp only [width_cons, width_append, width_nil, hquote]
    omega
  refine ⟨by omega, slice?_eq_some_iff.mpr ⟨['"'], ['"'], rfl, rfl, by omega⟩⟩

/-- Where the number of backslashes at the end is even, no scan over escapes ends with a backslash that is left over. -/
theorem Inside.ne_append_backslash {front value body : List Char} (h : Inside front value)
    (heven : trailingBackslashes body % 2 = 0) : body ≠ front ++ ['\\'] := by
  rintro rfl
  rw [h.trailingBackslashes_append] at heven
  cases heven

/-- So decoding gives a text or complains about a character after a backslash. -/
theorem decode_cases_of_even {body : List Char} (heven : trailingBackslashes body % 2 = 0) :
    (∃ value, decode body = .ok value) ∨
      ∃ front value e rest, body = front ++ '\\' :: e :: rest ∧ Inside front value ∧ (e ≠ '\\' ∧ e ≠ 'n' ∧ e ≠ '"') ∧
        decode body = .error e := by
  cases hd : decode body with
  | ok value => exact .inl ⟨value, rfl⟩
  | error e =>
    obtain ⟨front, value, hfront, ⟨he, rest, rfl⟩ | ⟨-, hbody⟩⟩ := decode_eq_error_iff.mp hd
    · refine .inr ⟨front, value, e, rest, rfl, hfront, ⟨?_, ?_, ?_⟩, rfl⟩
      · rintro rfl
        cases he
      · rintro rfl
        cases he
      · rintro rfl
        cases he
    · exact absurd hbody (hfront.ne_append_backslash heven)

end Quoted

/-- A token that starts with a quote stands where it was cut from the source: after the quote the pattern of strings takes the rest
of the token. It is a whole literal exactly when the run of pairs and plain characters in there ends before another quote, which is
taken, too. And of every whole literal, be it a token or not, the text between the first and the last byte can be cut out.
Decoding that gives a text, or complains about the character after the first backslash that starts none of the three escapes; it
never ends inside of an escape. -/
theorem literal_ends_agree :
    (∀ source, ∀ t ∈ tokenize source, t.chars.head? = some '"' →
        ∃ before rest after, source.toList = before ++ '"' :: rest ∧ t.offset = width before ∧
          '"' :: rest = t.chars ++ after ∧ Pattern.stringRest.first? rest = some after ∧
          (Quoted.isComplete t.chars = true ↔ (Pattern.many Pattern.stringUnit).first? rest = some ('"' :: after))) ∧
      ∀ cs, Quoted.isComplete cs = true →
        2 ≤ width cs ∧ ∃ body, slice? cs 1 (width cs - 1) = some body ∧ Quoted.inside? cs = some body ∧
          ((∃ value, Quoted.decode body = .ok value) ∨
            ∃ front value e rest, body = front ++ '\\' :: e :: rest ∧ Quoted.Inside front value ∧
              (e ≠ '\\' ∧ e ≠ 'n' ∧ e ≠ '"') ∧ Quoted.decode body = .error e) ∧
          ∀ front value, Quoted.Inside front value → body ≠ front ++ ['\\'] := by
  constructor
  · intro source t ht hq
    obtain ⟨-, before, after, hsource, hoffset, hcuts⟩ := (Lexer.tokenized_tokens 0 source.toList).slice t ht
    obtain ⟨cs, hchars⟩ := List.head?_eq_some_iff.mp hq
    rw [hchars] at hsource hcuts ⊢
    refine ⟨before, cs ++ after, after, hsource, ?_, rfl, hcuts.first?_stringRest, hcuts.isComplete_iff⟩
    rw [hoffset, Nat.zero_add]
  · intro cs hc
    obtain ⟨body, hbody⟩ := Option.isSome_iff_exists.mp hc
    obtain ⟨hwidth, hslice⟩ := Quoted.slice?_of_inside? hbody
    have heven := (Quoted.inside?_eq_some_iff.mp hbody).2
    exact ⟨hwidth, body, hslice, hbody, Quoted.decode_cases_of_even heven, fun _ _ hf => hf.ne_append_backslash heven⟩

/-- A string that a backslash before a newline cuts short is no whole literal, though its last character is a quote. A literal with
an escape that there is not is whole, and its inside can be cut out. -/
theorem literal_ends_agree_cut_short :
    (⟨"\"\\\"", 6⟩ ∈ tokenize "\"a\\\"\",\"\\\"\\\nc" ∧ Quoted.isComplete "\"\\\"".toList = false ∧
        ∃ rest after, '"' :: rest = "\"\\\"".toList ++ after ∧ Pattern.stringRest.first? rest = some after ∧
          (Pattern.many Pattern.stringUnit).first? rest ≠ some ('"' :: after)) ∧
      Quoted.isComplete "\"\\x\\\\\"".toList = true ∧
        ∃ body, slice? "\"\\x\\\\\"".toList 1 5 = some body ∧ Quoted.decode body = .error 'x' := by
  have htokens : [⟨"\"a\\\"\"", 0⟩, ⟨"\"\\\"", 6⟩, ⟨"\\", 9⟩, ⟨"c", 11⟩] = tokenize "\"a\\\"\",\"\\\"\\\nc" := by cbv
  have hmem : ⟨"\"\\\"", 6⟩ ∈ tokenize "\"a\\\"\",\"\\\"\\\nc" := htokens ▸ by simp
  have hwhole : Quoted.isComplete "\"\\x\\\\\"".toList = true := by decide
  obtain ⟨-, rest, after, -, -, hrest, hstring, hiff⟩ := literal_ends_agree.1 _ _ hmem rfl
  obtain ⟨-, body, hslice, hinside, -⟩ := literal_ends_agree.2 _ hwhole
  have hopen : Quoted.isComplete "\"\\\"".toList = false := by decide
  refine ⟨⟨hmem, hopen, rest, after, hrest, hstring, fun hrun => ?_⟩, hwhole, body, hslice, ?_⟩
  · rw [← hiff] at hrun
    exact absurd (hopen.symm.trans hrun) (by decide)
  · obtain rfl : "\\x\\\\".toList = body := Option.some.inj hinside
    rfl

end TinyLisp

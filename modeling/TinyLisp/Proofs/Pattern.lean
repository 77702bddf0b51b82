import TinyLisp.Proofs.Lexing

/-!
# Lexemes by a pattern

A pattern may take the front of a text in several ways. They come in an order of preference: an alternative before the ones after
it, a repetition that goes on before one that ends. `Pattern.search` looks for the first place where a pattern of a gap and a
lexeme takes anything, takes the way it prefers, and goes on behind it, until it takes an empty lexeme.

`tokens_eq_search` says that the lexer, which decides by the first character of a lexeme alone, finds the same tokens: no
preference that the pattern has is ever overturned by what follows, and the search does not end before the text does.
-/

namespace TinyLisp

/-- A pattern of texts. -/
inductive Pattern where
  /-- One character that passes a test. -/
  | one (test : Char → Bool)
  /-- Two patterns in a row. -/
  | both (p q : Pattern)
  /-- One of two patterns, the first one rather. -/
  | either (p q : Pattern)
  /-- A pattern as often as it can be had. -/
  | many (p : Pattern)
  /-- A pattern if it can be had. -/
  | maybe (p : Pattern)

namespace Pattern

/-! ## Ways of taking the front of a text -/

/-- What is left when something is taken again and again, more often rather than less. Every time has to take something. -/
def repeats (ways : List Char → List (List Char)) (cs : List Char) : List (List Char) :=
  ((ways cs).flatMap fun rest => if rest.length < cs.length then repeats ways rest else []) ++ [cs]
  termination_by cs.length

/-- What is left of a text, for every way in which a pattern takes the front of it, in order of preference. -/
def ways : Pattern → List Char → List (List Char)
  | one _, [] => []
  | one test, c :: rest => if test c then [rest] else []
  | both p q, cs => (ways p cs).flatMap (ways q)
  | either p q, cs => ways p cs ++ ways q cs
  | many p, cs => repeats (ways p) cs
  | maybe p, cs => ways p cs ++ [cs]

/-- What is left of a text in the way that a pattern prefers. -/
def first? (p : Pattern) (cs : List Char) : Option (List Char) := (p.ways cs).head?

/-- What is left of a text stands at its end. -/
theorem suffix_of_mem_ways {p : Pattern} {cs rest : List Char} (h : rest ∈ p.ways cs) : rest <:+ cs := by
  induction p generalizing cs rest with
  | one test =>
    cases cs with
    | nil => cases h
    | cons c cs =>
      rw [ways] at h
      split at h
      · rw [List.mem_singleton.mp h]
        exact List.suffix_cons c cs
      · cases h
  | both p q ihp ihq =>
    obtain ⟨mid, hmid, hrest⟩ := List.mem_flatMap.mp h
    exact (ihq hrest).trans (ihp hmid)
  | either p q ihp ihq =>
    rcases List.mem_append.mp h with h | h
    · exact ihp h
    · exact ihq h
  | many p ih =>
    rw [ways] at h
    fun_induction repeats p.ways cs with
    | case1 cs ihcs =>
      rcases List.mem_append.mp h with h | h
      · obtain ⟨mid, hmid, hrest⟩ := List.mem_flatMap.mp h
        split at hrest
        · next hlt => exact (ihcs mid hlt hrest).trans (ih hmid)
        · cases hrest
      · exact List.mem_singleton.mp h ▸ List.suffix_refl cs
  | maybe p ih =>
    rcases List.mem_append.mp h with h | h
    · exact ih h
    · exact List.mem_singleton.mp h ▸ List.suffix_refl cs

/-- A pattern has no way exactly when it prefers none. -/
theorem first?_eq_none_iff {p : Pattern} {cs : List Char} : p.first? cs = none ↔ p.ways cs = [] := List.head?_eq_none_iff

/-! ## The way that is preferred -/

@[simp] theorem first?_one_nil (test : Char → Bool) : (one test).first? [] = none := rfl

@[simp] theorem first?_one_cons (test : Char → Bool) (c : Char) (rest : List Char) :
    (one test).first? (c :: rest) = if test c then some rest else none := by
  rw [first?, ways]
  split <;> rfl

@[simp] theorem first?_either (p q : Pattern) (cs : List Char) :
    (either p q).first? cs = (p.first? cs).or (q.first? cs) := List.head?_append

@[simp] theorem first?_maybe (p : Pattern) (cs : List Char) : (maybe p).first? cs = (p.first? cs).or (some cs) :=
  List.head?_append

/-- A single character can be taken in one way only. -/
@[simp] theorem first?_one_both (test : Char → Bool) (q : Pattern) (cs : List Char) :
    (both (one test) q).first? cs = ((one test).first? cs).bind q.first? := by
  cases cs with
  | nil => rfl
  | cons c rest =>
    rw [first?_one_cons, first?, ways, ways]
    split <;> simp [first?]

/-- Before a pattern that takes every text, the first pattern is taken in the way that it prefers. -/
theorem first?_both {p q : Pattern} (hq : ∀ cs, q.first? cs ≠ none) (cs : List Char) :
    (both p q).first? cs = (p.first? cs).bind q.first? := by
  rw [first?, ways, first?]
  cases hp : p.ways cs with
  | nil => rfl
  | cons rest more =>
    obtain ⟨rest', hrest'⟩ := Option.ne_none_iff_exists'.mp (hq rest)
    rw [List.flatMap_cons, List.head?_append, List.head?_cons, Option.bind_some]
    rw [first?] at hrest' ⊢
    rw [hrest', Option.some_or]

/-- A repetition ends where the pattern cannot be had. -/
theorem first?_many_of_none {p : Pattern} {cs : List Char} (h : p.first? cs = none) : (many p).first? cs = some cs := by
  rw [first?, ways, repeats, first?_eq_none_iff.mp h]
  rfl

/-- A repetition takes every text. -/
theorem first?_many_ne_none (p : Pattern) (cs : List Char) : (many p).first? cs ≠ none := by
  rw [first?, ways, repeats, List.head?_append]
  simp

/-- A repetition goes on where the pattern takes something. -/
theorem first?_many_of_some {p : Pattern} {cs rest : List Char} (h : p.first? cs = some rest)
    (hlt : rest.length < cs.length) : (many p).first? cs = (many p).first? rest := by
  obtain ⟨more, hmore⟩ : ∃ more, p.ways cs = rest :: more := by
    rw [first?, List.head?_eq_some_iff] at h
    exact h
  obtain ⟨end', hend⟩ := Option.ne_none_iff_exists'.mp (first?_many_ne_none p rest)
  rw [hend]
  rw [first?, ways] at hend
  rw [first?, ways, repeats, hmore, List.flatMap_cons, if_pos hlt, List.head?_append, List.head?_append, hend]
  rfl

/-- A repetition of one character takes those that pass the test, up to the first that does not. -/
@[simp] theorem first?_many_one (test : Char → Bool) (cs : List Char) :
    (many (one test)).first? cs = some (cs.dropWhile test) := by
  induction cs with
  | nil => exact first?_many_of_none rfl
  | cons c rest ih =>
    cases hc : test c with
    | true =>
      have hstep : (one test).first? (c :: rest) = some rest := by simp [hc]
      rw [first?_many_of_some hstep (by simp), ih, List.dropWhile_cons_of_pos hc]
    | false =>
      rw [first?_many_of_none (by simp [hc]), List.dropWhile_cons_of_neg (by simp [hc])]

/-! ## The pattern of tokens -/

/-- The gap before a lexeme. -/
def gap : Pattern := many (one isGap)

/-- What stands inside a string lexeme: a backslash with any character but a newline after it, or any character but a backslash
and a quote. -/
def stringUnit : Pattern := either (both (one (· = '\\')) (one (· ≠ '\n'))) (one fun c => c ≠ '\\' ∧ c ≠ '"')

/-- A string lexeme after its opening quote. The closing quote may be missing. -/
def stringRest : Pattern := both (many stringUnit) (maybe (one (· = '"')))

/-- A lexeme. The last alternative takes every text, if need be by taking nothing. -/
def lexeme : Pattern :=
  either (both (one (· = '~')) (one (· = '@')))
    (either (one Lexer.standsAlone)
      (either (both (one (· = '"')) stringRest)
        (either (both (one (· = ';')) (many (one (· ≠ '\n')))) (many (one (!Lexer.endsBare ·))))))

/-- The preferred way of taking a gap and a lexeme from the front of a text: the text without the gap, and without both. -/
def match? (cs : List Char) : Option (List Char × List Char) :=
  ((gap.ways cs).flatMap fun start => (lexeme.ways start).map fun rest => (start, rest)).head?

/-- A match stands within the text. -/
theorem length_le_of_match? {cs start rest : List Char} (h : match? cs = some (start, rest)) :
    start.length ≤ cs.length := by
  obtain ⟨start', hstart, hrest⟩ := List.mem_flatMap.mp (List.mem_of_head? h)
  obtain ⟨rest', -, heq⟩ := List.mem_map.mp hrest
  cases heq
  exact (suffix_of_mem_ways hstart).length_le

/-- The match at the first place of a text where there is one. -/
def find? : List Char → Option (List Char × List Char)
  | [] => match? []
  | c :: rest => (match? (c :: rest)).or (find? rest)

/-- A match is found within the text. -/
theorem length_le_of_find? {cs start rest : List Char} (h : find? cs = some (start, rest)) : start.length ≤ cs.length := by
  induction cs with
  | nil => exact length_le_of_match? h
  | cons c cs ih =>
    rcases Option.or_eq_some_iff.mp h with h | ⟨-, h⟩
    · exact length_le_of_match? h
    · exact Nat.le_succ_of_le (ih h)

/-- The tokens that are found one after the other in a text that starts at the given offset. A match that takes no lexeme ends
the search. -/
def search (offset : Nat) (cs : List Char) : List Token :=
  match h : find? cs with
  | none => []
  | some (start, rest) =>
    if hlt : rest.length < start.length then
      have : rest.length < cs.length := Nat.lt_of_lt_of_le hlt (length_le_of_find? h)
      ⟨String.ofList (start.take (start.length - rest.length)), offset + (width cs - width start)⟩ ::
        search (offset + (width cs - width rest)) rest
    else []
  termination_by cs.length

/-! ## The lexer finds what the search finds -/

/-- A string lexeme ends where the lexer says. -/
theorem first?_stringRest (cs : List Char) : stringRest.first? cs = some (Lexer.splitString cs).2 := by
  have hq : ∀ cs, (maybe (one (· = '"'))).first? cs ≠ none := by simp
  rw [stringRest, first?_both hq]
  fun_induction Lexer.splitString cs with
  | case1 =>
    rw [first?_many_of_none (by simp [stringUnit])]
    rfl
  | case2 =>
    rw [first?_many_of_none (by simp [stringUnit])]
    rfl
  | case3 rest =>
    rw [first?_many_of_none (by simp [stringUnit])]
    rfl
  | case4 e rest he ih =>
    have hstep : stringUnit.first? ('\\' :: e :: rest) = some rest := by simp [stringUnit, he]
    rw [first?_many_of_some hstep (by simp only [List.length_cons]; omega)]
    exact ih
  | case5 rest hn hr =>
    rw [first?_many_of_none (by simp [stringUnit])]
    rfl
  | case6 c rest hn hr hc ih =>
    have hb : c ≠ '\\' := ne_backslash_of_cases hn hr
    have hstep : stringUnit.first? (c :: rest) = some rest := by simp [stringUnit, hb, hc]
    rw [first?_many_of_some hstep (by simp)]
    exact ih

/-- At the end of the text an empty lexeme is found. -/
theorem first?_lexeme_nil : lexeme.first? [] = some [] := by simp [lexeme]

/-- A character that starts a bare lexeme ends none. -/
theorem endsBare_eq_false {c : Char} (hg : isGap c = false) (hs : Lexer.standsAlone c = false) (hq : c ≠ '"') (hk : c ≠ ';') :
    Lexer.endsBare c = false := by
  simp only [Lexer.standsAlone, List.mem_cons, decide_eq_false_iff_not] at hs
  simp only [not_or] at hs
  simp [Lexer.endsBare, hg, hs, hq, hk]

/-- Where no gap stands the lexeme of the lexer is found. -/
theorem first?_lexeme_cons {c : Char} (hg : isGap c = false) (rest : List Char) :
    lexeme.first? (c :: rest) = some (Lexer.lexeme c rest).2 := by
  unfold Lexer.lexeme
  split
  · next h =>
    obtain ⟨rfl, hhead⟩ := h
    obtain ⟨tail, rfl⟩ := List.head?_eq_some_iff.mp hhead
    simp [lexeme]
  · next hns =>
    have htilde : (both (one (· = '~')) (one (· = '@'))).first? (c :: rest) = none := by
      by_cases hc : c = '~'
      · cases rest with
        | nil => simp
        | cons d rest =>
          have hd : d ≠ '@' := by
            rintro rfl
            exact hns ⟨hc, rfl⟩
          simp [hd]
      · simp [hc]
    rw [lexeme, first?_either, htilde, Option.none_or]
    split
    · next hs => simp [hs]
    · next hs =>
      split
      · next hq =>
        subst hq
        simp [Lexer.standsAlone, first?_stringRest]
      · next hq =>
        split
        · next hk =>
          subst hk
          simp [Lexer.standsAlone]
        · next hk =>
          have hc : Lexer.endsBare c = false := endsBare_eq_false hg (by simpa using hs) hq hk
          simp [hs, hq, hk, hc]

/-- The preferred match leaves out the whole gap, and then takes the preferred lexeme. -/
theorem match?_eq {cs rest : List Char} (h : lexeme.first? (cs.dropWhile isGap) = some rest) :
    match? cs = some (cs.dropWhile isGap, rest) := by
  have hgap : gap.first? cs = some (cs.dropWhile isGap) := first?_many_one isGap cs
  rw [first?, List.head?_eq_some_iff] at h hgap
  obtain ⟨more, hmore⟩ := hgap
  obtain ⟨more', hmore'⟩ := h
  rw [match?, hmore, List.flatMap_cons, hmore']
  rfl

theorem find?_eq {cs rest : List Char} (h : lexeme.first? (cs.dropWhile isGap) = some rest) :
    find? cs = some (cs.dropWhile isGap, rest) := by
  cases cs with
  | nil => exact match?_eq h
  | cons c cs => rw [find?, match?_eq h, Option.some_or]

/-- In every text a match is found. It leaves out the gap at the front and takes the lexeme after it, if there is one. -/
theorem find?_cases (cs : List Char) :
    (cs.dropWhile isGap = [] ∧ find? cs = some ([], [])) ∨
      ∃ c r, isGap c = false ∧ cs.dropWhile isGap = c :: r ∧ find? cs = some (c :: r, (Lexer.lexeme c r).2) := by
  cases hstart : cs.dropWhile isGap with
  | nil =>
    have hfirst : lexeme.first? (cs.dropWhile isGap) = some [] := by rw [hstart, first?_lexeme_nil]
    exact .inl ⟨rfl, by rw [find?_eq hfirst, hstart]⟩
  | cons c r =>
    have hg : isGap c = false := by
      have := List.head?_dropWhile_not isGap cs
      simpa [hstart] using this
    have hfirst : lexeme.first? (cs.dropWhile isGap) = some (Lexer.lexeme c r).2 := by rw [hstart, first?_lexeme_cons hg]
    exact .inr ⟨c, r, hg, rfl, by rw [find?_eq hfirst, hstart]⟩

/-- The tokens of a text are those after the gap at its front. -/
theorem tokens_dropWhile (offset : Nat) (cs : List Char) :
    Lexer.tokens offset cs = Lexer.tokens (offset + width (cs.takeWhile isGap)) (cs.dropWhile isGap) := by
  induction cs generalizing offset with
  | nil => rfl
  | cons c cs ih =>
    cases hg : isGap c with
    | true =>
      rw [Lexer.tokens_gap hg, ih, List.takeWhile_cons_of_pos hg, List.dropWhile_cons_of_pos hg, width_cons, Nat.add_assoc]
    | false =>
      have hn : ¬isGap c = true := by simp [hg]
      rw [List.takeWhile_cons_of_neg hn, List.dropWhile_cons_of_neg hn, width_nil, Nat.add_zero]

/-- The lexer finds the tokens that the search finds. -/
theorem tokens_eq_search (offset : Nat) (cs : List Char) : Lexer.tokens offset cs = search offset cs := by
  fun_induction search offset cs with
  | case1 offset cs hnone =>
    rcases find?_cases cs with ⟨-, hfind⟩ | ⟨c, r, -, -, hfind⟩
    · simp [hfind] at hnone
    · simp [hfind] at hnone
  | case2 offset cs start rest hsome hlt _ ih =>
    rcases find?_cases cs with ⟨-, hfind⟩ | ⟨c, r, hg, hstart, hfind⟩
    · rw [hfind] at hsome
      cases hsome
      simp at hlt
    · rw [hfind] at hsome
      cases hsome
      have happ := Lexer.lexeme_append c r
      have hwidth : width cs = width (cs.takeWhile isGap) + width (c :: r) := by
        rw [← hstart, ← width_append, List.takeWhile_append_dropWhile]
      have hlexeme : width (c :: r) = width (Lexer.lexeme c r).1 + width (Lexer.lexeme c r).2 := by
        rw [← width_append, happ]
      have htake : (c :: r).take ((c :: r).length - (Lexer.lexeme c r).2.length) = (Lexer.lexeme c r).1 := by
        rw [← happ, List.length_append, Nat.add_sub_cancel, List.take_left]
      have hplace : width cs - width (c :: r) = width (cs.takeWhile isGap) := by omega
      have hnext : offset + width (cs.takeWhile isGap) + width (Lexer.lexeme c r).1 =
          offset + (width cs - width (Lexer.lexeme c r).2) := by omega
      rw [tokens_dropWhile, hstart, Lexer.tokens_lexeme hg, htake, hplace, hnext, ih]
  | case3 offset cs start rest hsome hlt =>
    rcases find?_cases cs with ⟨hstart, -⟩ | ⟨c, r, -, -, hfind⟩
    · rw [tokens_dropWhile, hstart, Lexer.tokens]
    · rw [hfind] at hsome
      cases hsome
      have hle := Lexer.length_lexeme_le c r
      rw [List.length_cons] at hlt
      omega

end Pattern

end TinyLisp

import TinyLisp.Proofs.MapSameness
import TinyLisp.Proofs.Streams

/-!
# Map literals

Texts that can be read, each with a newline after it, make the text of a map when they are put between braces. Reading that text
adds the forms one by one to an open map, and so does building a map of the forms. `map_literal_agrees` says that both come to the
same: to maps that differ in offsets only, or to the same report. Which of these it is can be told from the forms (`mapFault?`).

The tokens of the literal are those of the texts, moved to where the texts stand (`tokenize_mapLiteral`). They take the pass over
the tokens to where the open map has taken all forms, unless it accepts one of them not (`Pass.runFrom_members`). What an open map
has taken is what the forms are paired up to (`Pass.Frame.addAll_close`). Since forms are paired up without a look at offsets, it
makes no difference where they stand.
-/

namespace TinyLisp

/-! ## What is wrong with the members of a map -/

/-- The forms in the places of keys: those at even positions. -/
def inKeyPlaces (members : List Form) : List Form := (members.zipIdx.filter (·.2 % 2 == 0)).map Prod.fst

/-- The report on members that make no map: on the first form in the place of a key that is neither a string nor a keyword, if
there is one, and else on the last form, if their number is odd. -/
def mapFault? (members : List Form) : Option ReadError :=
  match (inKeyPlaces members).find? (·.asKey?.isNone) with
  | some f => some (.invalidKey (f.print .readable))
  | none => if members.length % 2 = 1 then members.getLast?.map fun f => .unpairedKey (f.print .readable) else none

/-- After a key and a value, keys stand where they stand without them. -/
theorem inKeyPlaces_cons_cons (k v : Form) (rest : List Form) : inKeyPlaces (k :: v :: rest) = k :: inKeyPlaces rest := by
  have hshift : rest.zipIdx 2 = rest.zipIdx.map fun p => (p.1, 2 + p.2) := List.zipIdx_eq_map_add
  simp [inKeyPlaces, hshift, List.filter_map, Function.comp_def]

/-- Of a key, a value and more members, the key is reported first. -/
theorem mapFault?_cons_cons (k v : Form) (rest : List Form) :
    mapFault? (k :: v :: rest) = if k.asKey?.isNone then some (.invalidKey (k.print .readable)) else mapFault? rest := by
  unfold mapFault?
  rw [inKeyPlaces_cons_cons, List.find?_cons]
  cases hk : k.asKey?.isNone with
  | true => rfl
  | false =>
    have hlast : rest.length % 2 = 1 → (k :: v :: rest).getLast? = rest.getLast? := by
      intro hodd
      cases rest with
      | nil => cases hodd
      | cons f rest => rw [List.getLast?_cons_cons, List.getLast?_cons_cons]
    have hlength : (k :: v :: rest).length % 2 = rest.length % 2 := Nat.add_mod_right rest.length 2
    cases hfind : (inKeyPlaces rest).find? (·.asKey?.isNone) with
    | some f => rfl
    | none =>
      simp only [hlength, Bool.false_eq_true, if_false]
      by_cases hodd : rest.length % 2 = 1
      · rw [if_pos hodd, if_pos hodd, hlast hodd]
      · rw [if_neg hodd, if_neg hodd]

/-- Members that are paired up are reported on exactly as they are seen to be wrong. -/
theorem pairUp_eq_error_iff {members : List Form} {e : ReadError} :
    pairUp members = .error e ↔ mapFault? members = some e := by
  induction members using pairUp.induct with
  | case1 => simp [pairUp, mapFault?, inKeyPlaces]
  | case2 k =>
    have hfault : mapFault? [k] = some (if k.asKey?.isNone then .invalidKey (k.print .readable) else
        .unpairedKey (k.print .readable)) := by
      cases hk : k.asKey? <;> simp [mapFault?, inKeyPlaces, hk]
    rw [pairUp, hfault]
    cases hk : k.asKey? with
    | none => simp [Form.toKey, hk, Except.bind]
    | some key =>
      obtain rfl := Form.toForm_of_asKey? hk
      simp [Form.toKey, Except.bind, Key.unpaired]
  | case3 k v rest ih =>
    rw [pairUp, mapFault?_cons_cons]
    cases hk : k.asKey? with
    | none => simp [Form.toKey, hk, Except.bind]
    | some key =>
      rw [Form.toKey, hk, Option.isNone_some, if_neg Bool.false_ne_true, ← ih]
      cases pairUp rest <;> simp [Except.bind, Except.map]

/-- Members with nothing wrong are paired up. -/
theorem exists_pairUp_eq_ok {members : List Form} (h : mapFault? members = none) : ∃ pairs, pairUp members = .ok pairs := by
  cases hup : pairUp members with
  | ok pairs => exact ⟨pairs, rfl⟩
  | error e => simp [pairUp_eq_error_iff.mp hup] at h

/-- Members are wrong without a look at offsets. -/
theorem mapFault?_unplaced (members : List Form) : mapFault? (members.map Form.unplaced) = mapFault? members := by
  have hprint : ∀ f : Form, f.unplaced.print .readable = f.print .readable := by
    intro f
    rw [Form.print, Form.unplaced, Form.spell_relocate, Form.print]
  have hkey : (fun f : Form => f.unplaced.asKey?.isNone) = fun f => f.asKey?.isNone := by
    funext f
    rw [Form.unplaced, asKey?_relocate, Option.isNone_map]
  have hplaces : inKeyPlaces (members.map Form.unplaced) = (inKeyPlaces members).map Form.unplaced := by
    simp [inKeyPlaces, List.zipIdx_map, List.filter_map, Function.comp_def]
  unfold mapFault?
  rw [hplaces, List.find?_map, Function.comp_def, hkey, List.length_map, List.getLast?_map, Option.map_map]
  cases (inKeyPlaces members).find? (·.asKey?.isNone) with
  | some f => simp [hprint]
  | none => simp [Function.comp_def, hprint]

/-! ## Members of an open map -/

namespace Pass

/-- The open collection with more members. -/
def Frame.addAll (frame : Frame) (forms : List Form) : Except ReadError Frame := forms.foldlM (fun frame f => frame.add f) frame

/-- More members are added one by one. -/
theorem Frame.addAll_cons (frame : Frame) (f : Form) (forms : List Form) :
    frame.addAll (f :: forms) = (frame.add f).bind fun frame => frame.addAll forms := List.foldlM_cons

/-- A collection with one more member is of the same shape. -/
theorem Frame.shape_of_add {frame frame' : Frame} {f : Form} (h : frame.add f = .ok frame') : frame'.shape = frame.shape := by
  rcases frame with ⟨kind, opening, members⟩ | ⟨opening, pairs, _ | k⟩
  · cases h
    rfl
  · rw [Frame.add_key] at h
    obtain ⟨k, -, rfl⟩ := IndexedMap.exists_of_except_map_eq_ok h
    rfl
  · cases h
    rfl

/-- A collection with more members is of the same shape. -/
theorem Frame.shape_of_addAll {frame frame' : Frame} {forms : List Form} (h : frame.addAll forms = .ok frame') :
    frame'.shape = frame.shape := by
  induction forms generalizing frame with
  | nil =>
    cases h
    rfl
  | cons f forms ih =>
    rw [addAll_cons] at h
    cases hadd : frame.add f with
    | error e => simp [hadd, Except.bind] at h
    | ok next =>
      rw [hadd] at h
      rw [ih h, shape_of_add hadd]

/-- An open map that takes forms and is closed then has the keys and values that the forms are paired up to. -/
theorem Frame.addAll_close (opening closing : Token) (pairs : List (Key × Form)) (forms : List Form) :
    ((Frame.map opening pairs none).addAll forms).bind (Frame.close closing) =
      (pairUp forms).map fun more => .map ⟨some opening, some closing⟩ (pairs ++ more) := by
  induction forms using pairUp.induct generalizing pairs with
  | case1 =>
    rw [pairUp, Except.map, List.append_nil]
    rfl
  | case2 k =>
    rw [pairUp, addAll_cons, add_key]
    cases k.toKey <;> rfl
  | case3 k v rest ih =>
    rw [pairUp, addAll_cons, add_key]
    cases k.toKey with
    | error e => rfl
    | ok k =>
      have hgrow := ih (pairs ++ [(k, v)])
      simp only [Except.map, Except.bind, addAll_cons, Frame.add] at hgrow ⊢
      rw [hgrow]
      cases pairUp rest <;> simp

/-- The tokens of forms take the pass to where the innermost open collection has taken the forms, or to the report on one that it
does not accept. -/
theorem runFrom_members {limit : Nat} {phrases : List (List Token × Form)} (hp : ∀ p ∈ phrases, Passes limit p.1 p.2)
    {outer : List Frame} (hn : ∀ p ∈ phrases, p.2.nesting + (outer.length + 1) ≤ limit) (frame : Frame) (rest : List Token) :
    runFrom limit (.reading (frame :: outer)) (phrases.flatMap (·.1) ++ rest) =
      (frame.addAll (phrases.map (·.2))).bind fun frame => runFrom limit (.reading (frame :: outer)) rest := by
  induction phrases generalizing frame with
  | nil => rfl
  | cons p ps ih =>
    obtain ⟨hp1, hps⟩ := List.forall_mem_cons.mp hp
    obtain ⟨hn1, hns⟩ := List.forall_mem_cons.mp hn
    rw [List.flatMap_cons, List.append_assoc, hp1 (frame :: outer) _ hn1, List.map_cons, Frame.addAll_cons, deliver]
    cases frame.add p.2 with
    | error e => rfl
    | ok next => exact ih hps hns next

/-- The tokens of forms between the delimiters of a map are read as the map of the forms, if it is one. -/
theorem run_map {limit : Nat} {o c : Token} {phrases : List (List Token × Form)} (ho : o.chars = [Shape.map.opening])
    (hc : c.chars = [Shape.map.closing]) (hp : ∀ p ∈ phrases, Passes limit p.1 p.2) (hlimit : 0 < limit)
    (hn : ∀ p ∈ phrases, p.2.nesting < limit) :
    run limit (o :: (phrases.flatMap (·.1) ++ [c])) = (pairUp (phrases.map (·.2))).map (.map ⟨some o, some c⟩) := by
  have hinside : ∀ p ∈ phrases, p.2.nesting + (([] : List Frame).length + 1) ≤ limit := hn
  have hclose := Frame.addAll_close o c [] (phrases.map (·.2))
  simp only [List.nil_append] at hclose
  rw [run, runFrom_cons, step_opening (ho ▸ Shape.ofOpening?_opening .map), List.length_nil, if_neg (by omega), ← hclose]
  simp only [Except.bind, Frame.start]
  rw [runFrom_members hp hinside]
  cases hadd : (Frame.map o [] none).addAll (phrases.map (·.2)) with
  | error e => rfl
  | ok frame =>
    have hshape : frame.shape = .map := Frame.shape_of_addAll hadd
    simp only [Except.bind]
    rw [runFrom_cons, step_close (hshape ▸ hc)]
    cases frame.close c <;> rfl

end Pass

/-! ## The text of a map -/

/-- The text of a map whose members are read from the given texts: the texts between braces, each with a newline after it. -/
def mapLiteral (texts : List String) : String := "\x7b" ++ String.join (texts.map (· ++ "\n")) ++ "\x7d"

/-- The tokens of lines, up to a delimiter after them, are the tokens of the texts where these stand. -/
theorem tokens_lines {limit : Nat} {sources : List (String × Form)} (h : ∀ s ∈ sources, readText limit s.1 = .ok s.2)
    {c : Char} (hc : Shape.IsDelimiter [c]) (offset : Nat) :
    ∃ stop, Lexer.tokens offset ((String.join ((sources.map Prod.fst).map (· ++ "\n"))).toList ++ [c]) =
      (placed offset sources).flatMap (·.1) ++ [⟨String.ofList [c], stop⟩] := by
  induction sources generalizing offset with
  | nil =>
    refine ⟨offset, ?_⟩
    have hlast := Lexer.tokens_delimiter hc offset []
    rw [Lexer.tokens] at hlast
    simpa [String.join_nil, placed] using hlast
  | cons s sources ih =>
    obtain ⟨hs, hsources⟩ := List.forall_mem_cons.mp h
    obtain ⟨stop, hstop⟩ := ih hsources (offset + (s.1.utf8ByteSize + 1))
    refine ⟨stop, ?_⟩
    have hjoin : (String.join (((s :: sources).map Prod.fst).map (· ++ "\n"))).toList ++ [c] =
        s.1.toList ++ '\n' :: ((String.join ((sources.map Prod.fst).map (· ++ "\n"))).toList ++ [c]) := by
      simp [String.join_cons]
    rw [hjoin, tokens_line hs, hstop, placed, List.flatMap_cons, List.append_assoc]

/-- The tokens of the text of a map are the delimiters and, between them, the tokens of the texts where these stand. -/
theorem tokenize_mapLiteral {limit : Nat} {sources : List (String × Form)}
    (h : ∀ s ∈ sources, readText limit s.1 = .ok s.2) :
    ∃ o c : Token, o.chars = [Shape.map.opening] ∧ c.chars = [Shape.map.closing] ∧
      tokenize (mapLiteral (sources.map Prod.fst)) = o :: ((placed 1 sources).flatMap (·.1) ++ [c]) := by
  have hopening : Shape.IsDelimiter [Shape.map.opening] := ⟨.map, .inl rfl⟩
  have hclosing : Shape.IsDelimiter [Shape.map.closing] := ⟨.map, .inr rfl⟩
  obtain ⟨stop, hstop⟩ := tokens_lines h hclosing 1
  have hliteral : (mapLiteral (sources.map Prod.fst)).toList =
      Shape.map.opening :: ((String.join ((sources.map Prod.fst).map (· ++ "\n"))).toList ++ [Shape.map.closing]) := by
    simp [mapLiteral, Shape.opening, Shape.closing]
  refine ⟨⟨String.ofList [Shape.map.opening], 0⟩, ⟨String.ofList [Shape.map.closing], stop⟩, String.toList_ofList,
    String.toList_ofList, ?_⟩
  rw [tokenize, hliteral, Lexer.tokens_delimiter hopening, ← hstop]
  rfl

/-- The text of a map is read as the map of the forms where they stand, if they make one. -/
theorem readText_mapLiteral {limit : Nat} (hlimit : 0 < limit) {sources : List (String × Form)}
    (h : ∀ s ∈ sources, readText limit s.1 = .ok s.2 ∧ s.2.nesting < limit) :
    ∃ delims, readText limit (mapLiteral (sources.map Prod.fst)) =
      (pairUp ((placed 1 sources).map Prod.snd)).map (.map delims) := by
  -- One level of nesting is kept free for the map itself.
  have hread : ∀ s ∈ sources, readText (limit - 1) s.1 = .ok s.2 := by
    intro s hs
    obtain ⟨hread, hnesting⟩ := h s hs
    exact readTokens_eq_ok_iff.mpr ⟨(readTokens_eq_ok_iff.mp hread).1, by omega⟩
  have hplaced : ∀ p ∈ placed 1 sources, Derives (content p.1) p.2 ∧ p.2.nesting ≤ limit - 1 := fun p hp =>
    readTokens_eq_ok_iff.mp (readTokens_placed hread 1 p hp)
  let phrases := (placed 1 sources).map fun p => (content p.1, p.2)
  have hpasses : ∀ p ∈ phrases, Pass.Passes limit p.1 p.2 :=
    List.forall_mem_map.mpr fun p hp => Pass.passes_of_derives (hplaced p hp).1 limit
  have hnesting : ∀ p ∈ phrases, p.2.nesting < limit :=
    List.forall_mem_map.mpr fun p hp => Nat.lt_of_le_of_lt (hplaced p hp).2 (Nat.sub_one_lt_of_lt hlimit)
  have hforms : phrases.map (·.2) = (placed 1 sources).map Prod.snd := List.map_map
  obtain ⟨o, c, ho, hc, htokens⟩ := tokenize_mapLiteral hread
  have hcontent : content (tokenize (mapLiteral (sources.map Prod.fst))) = o :: (phrases.flatMap (·.1) ++ [c]) := by
    have hdelimiters : o.isComment = false ∧ content [c] = [c] :=
      ⟨Lexer.not_isComment_of_isDelimiter ⟨.map, .inl ho⟩,
        content_cons (Lexer.not_isComment_of_isDelimiter ⟨.map, .inr hc⟩) []⟩
    have hinside : content ((placed 1 sources).flatMap (·.1)) = phrases.flatMap (·.1) := by
      rw [content, List.filter_flatMap, List.flatMap_map]
      rfl
    rw [htokens, content_cons hdelimiters.1, content_append, hinside, hdelimiters.2]
  refine ⟨⟨some o, some c⟩, ?_⟩
  rw [readText, Pass.readTokens_eq_run, hcontent, Pass.run_map ho hc hpasses hlimit hnesting, hforms]

/-! ## Literals and maps of forms -/

/-- Forms of texts differ from the forms where the texts stand in offsets only. -/
theorem unplaced_placed (offset : Nat) (sources : List (String × Form)) :
    ((placed offset sources).map Prod.snd).map Form.unplaced = (sources.map Prod.snd).map Form.unplaced := by
  induction sources generalizing offset with
  | nil => rfl
  | cons s sources ih =>
    simp only [placed, List.map_cons, Form.unplaced_relocate]
    rw [ih]

namespace IndexedMap

/-- Whether two kept maps differ in offsets and delimiters only: they have the same members and the same entries in the same
order, apart from offsets, and they are the same in a comparison. -/
structure Matches (m n : IndexedMap) : Prop where
  members : m.members.map Form.unplaced = n.members.map Form.unplaced
  entries : m.entries.map (Prod.map Form.unplaced Form.unplaced) = n.entries.map (Prod.map Form.unplaced Form.unplaced)
  same : m.same n = true

/-- The key and the value without offsets. -/
def unplacedPair : Key × Form → Key × Form := Prod.map (Key.relocate fun _ => 0) Form.unplaced

theorem alternate_unplaced (pairs : List (Key × Form)) :
    (alternate pairs).map Form.unplaced = alternate (pairs.map unplacedPair) := by
  induction pairs with
  | nil => rfl
  | cons p rest ih =>
    rw [List.map_cons, alternate_cons, alternate_cons, List.map_cons, List.map_cons, ih, unplacedPair, Prod.map_fst,
      Key.toForm_relocate]
    rfl

theorem entries_unplaced (delims : Delimiters) (pairs : List (Key × Form)) :
    (ofPairs delims pairs).entries.map (Prod.map Form.unplaced Form.unplaced) =
      (ofPairs delims (pairs.map unplacedPair)).entries := by
  have hmoved : Entries.entries (pairs.map unplacedPair) = (Entries.entries pairs).map unplacedPair :=
    Entries.entries_map (Key.index_relocate _) Form.unplaced pairs
  simp only [entries, ofPairs, indexOf, hmoved, List.map_map]
  refine List.map_congr_left fun e _ => Prod.ext ?_ rfl
  exact (Key.toForm_relocate _ e.1).symm

/-- The normal form of a map does not depend on its delimiters and offsets. -/
theorem normal_map_unplaced (delims : Delimiters) (pairs : List (Key × Form)) :
    (Form.map delims pairs).normal = (Form.map {} (pairs.map unplacedPair)).normal := by
  have hmoved : (Form.map {} pairs).unplaced = Form.map {} (pairs.map unplacedPair) := by
    rw [Form.unplaced, Form.relocate, relocatePairs_eq_map]
    rfl
  rw [← hmoved, Form.unplaced, Form.normal_relocate]
  rfl

/-- Maps match if their members do. -/
theorem matches_ofPairs {d e : Delimiters} {as bs : List (Key × Form)}
    (h : (alternate as).map Form.unplaced = (alternate bs).map Form.unplaced) : (ofPairs d as).Matches (ofPairs e bs) := by
  have hpairs : as.map unplacedPair = bs.map unplacedPair := by
    rw [alternate_unplaced, alternate_unplaced] at h
    have hup := congrArg pairUp h
    rw [pairUp_alternate, pairUp_alternate] at hup
    exact Except.ok.inj hup
  refine ⟨h, ?_, ?_⟩
  · rw [entries_unplaced, entries_unplaced, hpairs]
    rfl
  · rw [same_ofPairs, Form.beq_eq_same]
    refine same_of_normal_eq ?_
    rw [normal_map_unplaced, hpairs, ← normal_map_unplaced]

end IndexedMap

open IndexedMap

/-- The text of a map comes to what building a map of the forms in it comes to. For texts that are read as forms, nested so that
there is room for the map around them, there are two cases. If something is wrong with the forms as members of a map, that is the
report in both ways. If nothing is, the text is read as a map that the reader makes, whose members are the forms where they stand
in the text, and it matches the map that is built of the forms: they have the same members and the same entries in the same order,
and are the same. -/
theorem map_literal_agrees {limit : Nat} (hlimit : 0 < limit) {sources : List (String × Form)}
    (h : ∀ s ∈ sources, readText limit s.1 = .ok s.2 ∧ s.2.nesting < limit) :
    let members := sources.map Prod.snd
    let literal := mapLiteral (sources.map Prod.fst)
    (∀ e, mapFault? members = some e →
        readText limit literal = .error e ∧ ofMembers members = .error e ∧ Form.ofAlternating members = .error e) ∧
      (mapFault? members = none →
        ∃ delims pairs pairs', readText limit literal = .ok (.map delims pairs) ∧ Loaded limit (ofPairs delims pairs) ∧
          alternate pairs = (placed 1 sources).map Prod.snd ∧
          ofMembers members = .ok (ofPairs {} pairs') ∧ Form.ofAlternating members = .ok (.map {} pairs') ∧
          alternate pairs' = members ∧ (ofPairs delims pairs).Matches (ofPairs {} pairs')) := by
  intro members literal
  obtain ⟨delims, hliteral⟩ := readText_mapLiteral hlimit h
  -- The first text stands behind the opening brace, so it starts at offset one.
  have hunplaced := unplaced_placed 1 sources
  have hfault : mapFault? ((placed 1 sources).map Prod.snd) = mapFault? members := by
    rw [← mapFault?_unplaced, hunplaced, mapFault?_unplaced]
  rw [ofMembers_eq, Form.ofAlternating]
  constructor
  · intro e he
    have hbuilt : pairUp members = .error e := pairUp_eq_error_iff.mpr he
    have hread : pairUp ((placed 1 sources).map Prod.snd) = .error e := pairUp_eq_error_iff.mpr (hfault.trans he)
    rw [hliteral, hread, hbuilt]
    exact ⟨rfl, rfl, rfl⟩
  · intro hnone
    obtain ⟨pairs', hbuilt⟩ := exists_pairUp_eq_ok hnone
    obtain ⟨pairs, hread⟩ := exists_pairUp_eq_ok (hfault.trans hnone)
    have hmembers : alternate pairs = (placed 1 sources).map Prod.snd := alternate_of_pairUp hread
    have hmembers' : alternate pairs' = members := alternate_of_pairUp hbuilt
    rw [hread] at hliteral
    refine ⟨delims, pairs, pairs', hliteral, ?_, hmembers, by rw [hbuilt]; rfl, by rw [hbuilt]; rfl, hmembers', ?_⟩
    · exact (mapsKept_map.mp (mapsKept_of_readText hliteral)).1
    · exact matches_ofPairs (by rw [hmembers, hunplaced, hmembers'])

/-- A map with a map as a value and a key that comes again is read and built; where a list stands in the place of a key, that is
reported, although the number of the forms is odd, too. -/
theorem map_literal_agrees_nested :
    let a : Form := .keyword ⟨.shared, "a"⟩ (some ⟨":a", 0⟩)
    let inner : Form := .map ⟨some ⟨"\x7b", 0⟩, some ⟨"\x7d", 9⟩⟩ [(.str "k" (some ⟨"\"k\"", 1⟩), .bool true)]
    let list : Form := .seq .list ⟨some ⟨"(", 0⟩, some ⟨")", 3⟩⟩ [.keyword ⟨.shared, "a"⟩ (some ⟨":a", 1⟩)]
    let sources := [(":a ; b", a), ("\x7b\"k\" true\x7d", inner), (":a", a), ("false", .bool false)]
    let misplaced := [(":a", a), ("false", .bool false), ("(:a)", list), ("false", .bool false), (":a", a)]
    (∃ delims pairs m, readText 2 (mapLiteral (sources.map Prod.fst)) = .ok (.map delims pairs) ∧
        ofMembers [a, inner, a, .bool false] = .ok m ∧ (ofPairs delims pairs).Matches m) ∧
      readText 2 (mapLiteral (misplaced.map Prod.fst)) = .error (.invalidKey "(:a)") := by
  intro a inner list sources misplaced
  have ha : readText 2 ":a" = .ok a := by cbv
  have hcomment : readText 2 ":a ; b" = .ok a := by cbv
  have hinner : readText 2 "\x7b\"k\" true\x7d" = .ok inner := by cbv
  have hlist : readText 2 "(:a)" = .ok list := by cbv
  have hfalse : readText 2 "false" = .ok (.bool false) := by cbv
  have hsources : ∀ s ∈ sources, readText 2 s.1 = .ok s.2 ∧ s.2.nesting < 2 := by
    simp [sources, ha, hcomment, hinner, hfalse, a, inner, Form.nesting, nestingOfValues]
  have hmisplaced : ∀ s ∈ misplaced, readText 2 s.1 = .ok s.2 ∧ s.2.nesting < 2 := by
    simp [misplaced, ha, hlist, hfalse, a, list, Form.nesting, nestingOfMembers]
  constructor
  · have hnone : mapFault? (sources.map Prod.snd) = none := by cbv
    obtain ⟨delims, pairs, pairs', hread, -, -, hbuilt, -, -, hmatches⟩ :=
      (map_literal_agrees Nat.two_pos hsources).2 hnone
    exact ⟨delims, pairs, _, hread, hbuilt, hmatches⟩
  · have hfault : mapFault? (misplaced.map Prod.snd) = some (.invalidKey "(:a)") := by cbv
    exact ((map_literal_agrees Nat.two_pos hmisplaced).1 _ hfault).1

end TinyLisp

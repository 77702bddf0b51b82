import TinyLisp.Proofs.Lexing
import TinyLisp.Proofs.Normal
import TinyLisp.Proofs.Throughout

/-!
# Reading what was written

A form is readable when its symbols and keywords are what their own texts are read as, and it holds no function.
`readable_and_reads_printed` says that whatever is read is readable, and that the readable text of a readable form is read as a
form that is the same and is written the same.

What is read back is the normal form of what was written, up to tokens (`readText_print`), so no key comes twice in it. The
limit on nesting counts only what is written. Values that were replaced in a map are not, so the second half asks readability
and the limit of the normal form only; both follow from those of the form (`Readable.normal`, `nesting_normal_le`).
-/

namespace TinyLisp

/-- Whether a form, as far as it is an atom, is what its own text is read as. -/
def Form.ReadsBack : Form → Prop
  | .symbol name _ => ∃ t, readText defaultNesting name = .ok (.symbol name t)
  | .keyword k _ => k.table = .shared ∧ ∃ t, readText defaultNesting (":" ++ k.name) = .ok (.keyword k t)
  | .builtin _ => False
  | _ => True

/-- Whether all parts of a form are what their own texts are read as. -/
def Form.Readable (f : Form) : Prop := ∀ g ∈ f.parts, g.ReadsBack

/-- Whether a key is what its own text is read as does not depend on its token. -/
theorem readsBack_bare {k : Key} : k.bare.toForm.ReadsBack ↔ k.toForm.ReadsBack := by cases k <;> exact Iff.rfl

/-! ## What is read is readable -/

/-- What a token stands for does not depend on its offset. -/
theorem Atom.relocate {t : Token} {f : Form} (h : Atom t f) (g : Nat → Nat) : Atom (t.relocate g) (f.relocate g) := by
  obtain ⟨hd, hr⟩ := atom_iff.mp h
  refine atom_iff.mpr ⟨hd, ?_⟩
  rw [readAtom_relocate, hr, relocateResult_ok]

/-- A token that is the only one of its text, and no comment, is read from its text. -/
theorem Atom.readText {t : Token} {f : Form} (h : Atom t f) (ht : tokenize t.text = [t.unplaced])
    (hc : t.isComment = false) (limit : Nat) : readText limit t.text = .ok f.unplaced := by
  have hcontent : content [t.unplaced] = [t.unplaced] :=
    content_cons (show t.unplaced.isComment = false from hc) []
  refine readTokens_eq_ok_iff.mpr ⟨?_, ?_⟩
  · rw [ht, hcontent]
    exact .atom (h.relocate _)
  · rw [Form.unplaced, (h.relocate _).nesting]
    exact Nat.zero_le _

/-- An atom is what its own text is read as. -/
theorem Atom.readsBack {t : Token} {f : Form} (h : Atom t f) (ht : tokenize t.text = [t.unplaced])
    (hc : t.isComment = false) : f.ReadsBack := by
  have hr := h.readText ht hc defaultNesting
  cases h with
  | yes | no | int | str => trivial
  | symbol => exact ⟨_, hr⟩
  | @keyword name h =>
    have htext : ":" ++ String.ofList name = t.text := by
      rw [Token.chars] at h
      rw [← String.toList_inj, String.toList_append, String.toList_ofList]
      simp [h]
    exact ⟨rfl, some t.unplaced, htext ▸ hr⟩

/-- Every form that is read is readable. -/
theorem readable_of_readText {limit : Nat} {source : String} {f : Form} (h : readText limit source = .ok f) :
    f.Readable := by
  refine throughout_of_readText h (fun g hg => ?_) fun t ht g ha => ?_
  · cases g <;> trivial
  · obtain ⟨ht, hc⟩ := List.mem_filter.mp ht
    exact ha.readsBack (tokenize_text ht) (by simpa using hc)

/-! ## What is written is read -/

/-- A text that gives something has the tokens of it, and no comments, when nothing else is there. -/
theorem Lexer.Gives.content {β : Type} {cs : List Char} {toks : β → List Token} {P : β → Prop} (h : Gives cs toks P) :
    ∃ b, P b ∧ TinyLisp.content (tokenize (String.ofList cs)) = toks b := by
  obtain ⟨b, hp, hc, ht⟩ := h 0 [] breaks_nil
  rw [List.append_nil, tokens, List.append_nil] at ht
  refine ⟨b, hp, ?_⟩
  rw [tokenize, String.toList_ofList, ht]
  exact List.filter_eq_self.mpr fun t ht => by simp [hc t ht]

/-- Offsets do not count for the key. -/
@[simp] theorem Key.bare_relocate (g : Nat → Nat) (k : Key) : (k.relocate g).bare = k.bare := by cases k <;> rfl

/-- Offsets do not show. -/
theorem Form.bare_relocate (g : Nat → Nat) (f : Form) : (f.relocate g).bare = f.bare := by
  induction f with
  | int | symbol | str | keyword | bool | builtin => rfl
  | seq kind delims members ih =>
    rw [Form.relocate, Form.bare, Form.bare, bareMembers_eq_map, bareMembers_eq_map, relocateMembers_eq_map, List.map_map]
    exact congrArg _ (List.map_congr_left ih)
  | map delims pairs ih =>
    rw [Form.relocate, Form.bare, Form.bare, barePairs_eq_map, barePairs_eq_map, relocatePairs_eq_map, List.map_map]
    exact congrArg _ (List.map_congr_left fun p hp => Prod.ext (Key.bare_relocate g p.1) (ih p hp))

/-- Offsets do not count for the normal form. -/
theorem Form.normal_relocate (g : Nat → Nat) (f : Form) : (f.relocate g).normal = f.normal := by
  rw [← normal_bare, Form.bare_relocate, normal_bare]

/-- A text gives a form that has the normal form of another, and is nested no deeper than that. -/
def GivesForm (cs : List Char) (f : Form) : Prop :=
  Lexer.Gives cs Prod.fst fun q : List Token × Form =>
    Derives q.1 q.2 ∧ q.2.normal = f.normal ∧ q.2.nesting ≤ f.normal.nesting

/-- A text gives a form that is the normal form of another, up to tokens: no key comes twice in its maps. -/
def GivesNormal (cs : List Char) (f : Form) : Prop :=
  Lexer.Gives cs Prod.fst fun q : List Token × Form => Derives q.1 q.2 ∧ q.2.bare = f.normal

/-- A lexeme that is no comment gives the form that it stands for. -/
theorem givesNormal_of_stands {cs : List Char} {f : Form} (hs : Lexer.Stands cs) (hc : cs.head? ≠ some ';')
    (h : ∀ offset, ∃ g, Atom ⟨String.ofList cs, offset⟩ g ∧ g.bare = f.normal) : GivesNormal cs f := by
  intro offset rest hb
  obtain ⟨g, hg, hn⟩ := h offset
  refine ⟨([⟨String.ofList cs, offset⟩], g), ⟨.atom hg, hn⟩, ?_, ?_⟩
  · rw [List.forall_mem_singleton]
    simpa [Token.isComment, Token.chars] using hc
  · rw [hs.tokens hb]
    rfl

/-- A token of a text that is no comment and no string literal gives the form that it stands for. -/
theorem givesNormal_of_token {source : String} {t : Token} {f g : Form} (ht : t ∈ tokenize source)
    (hc : t.isComment = false) (hq : t.chars.head? ≠ some '"') (h : Atom t g) (hn : g.bare = f.normal) :
    GivesNormal t.chars f := by
  have hk : t.chars.head? ≠ some ';' := by simpa [Token.isComment] using hc
  refine givesNormal_of_stands ((Lexer.whole_of_mem_tokens ht).stands hq hk) hk fun offset => ?_
  rw [Token.chars, String.ofList_toList]
  exact ⟨_, h.relocate fun _ => offset, (Form.bare_relocate _ g).trans hn⟩

/-- An atom that is read from a text is what a token of the text stands for. -/
theorem atom_of_readText {limit : Nat} {source : String} {f : Form} (h : readText limit source = .ok f)
    (hf : f.isCollection = false) : ∃ t ∈ tokenize source, t.isComment = false ∧ Atom t f := by
  obtain ⟨hd, _⟩ := readTokens_eq_ok_iff.mp h
  generalize hts : content (tokenize source) = ts at hd
  cases hd with
  | @atom t f ha =>
    obtain ⟨ht, hc⟩ := List.mem_filter.mp (hts ▸ List.mem_singleton_self t)
    exact ⟨t, ht, by simpa using hc, ha⟩
  | seq | map => cases hf

/-- What is written for a readable symbol gives the symbol. -/
theorem givesNormal_symbol {name : String} {token : Option Token} (h : (Form.symbol name token).ReadsBack) :
    GivesNormal name.toList (.symbol name token) := by
  obtain ⟨t', hr⟩ := h
  obtain ⟨t, ht, hc, ha⟩ := atom_of_readText hr rfl
  cases ha with
  | symbol hy hn hi hk hq hd => exact givesNormal_of_token ht hc hq (.symbol hy hn hi hk hq hd) rfl

/-- What is written for a readable keyword gives the keyword. -/
theorem givesNormal_keyword {k : Keyword} {token : Option Token} (h : (Form.keyword k token).ReadsBack) :
    GivesNormal k.spell (.keyword k token) := by
  obtain ⟨_, t', hr⟩ := h
  obtain ⟨t, ht, hc, ha⟩ := atom_of_readText hr rfl
  cases ha with
  | @keyword name h =>
    have hs : t.chars = (⟨.shared, String.ofList name⟩ : Keyword).spell := by
      rw [h, Keyword.spell, String.toList_ofList]
    exact hs ▸ givesNormal_of_token ht hc (by simp [h]) (.keyword h) rfl

/-- What is written for a string gives the string. -/
theorem givesNormal_str (value : String) (token : Option Token) :
    GivesNormal (Quoted.encode value.toList) (.str value token) := by
  have hi : Quoted.Inside (value.toList.flatMap Quoted.escape) value.toList :=
    Quoted.decode_eq_ok_iff.mp (Quoted.decode_escape value.toList)
  refine givesNormal_of_stands (Lexer.stands_encode _) (by simp [Quoted.encode]) fun offset => ⟨_, .str ?_ hi, ?_⟩
  · rw [Token.chars, String.toList_ofList]
    rfl
  · rw [String.ofList_toList]
    rfl

/-- What is written for an integer gives the integer. -/
theorem givesNormal_int (value : Int64) (token : Option Token) :
    GivesNormal (Numeral.spell value.toInt) (.int value token) := by
  have hd := Numeral.parse?_eq_some_iff.mp (Numeral.parse?_spell value.toInt)
  refine givesNormal_of_stands (Lexer.stands_spell _) (hd.head?_ne (by decide) (by decide)) fun offset => ⟨_, .int ?_ rfl, rfl⟩
  rwa [Token.chars, String.toList_ofList]

/-- What is written for a boolean gives the boolean. -/
theorem givesNormal_bool (value : Bool) : GivesNormal (spellBool value) (.bool value) := by
  refine givesNormal_of_stands (Lexer.stands_spellBool _) (by cases value <;> decide) fun offset => ?_
  cases value
  · exact ⟨_, .no rfl, rfl⟩
  · exact ⟨_, .yes rfl, rfl⟩

/-- What is written for a sequence gives the sequence, if its members do. -/
theorem givesNormal_seq {kind : SeqKind} {delims : Delimiters} {members : List Form}
    (h : ∀ m ∈ members, GivesNormal (m.spell .readable) m) :
    GivesNormal ((Form.seq kind delims members).spell .readable) (.seq kind delims members) := by
  rw [Form.spell, spellMembers_eq_map]
  refine (Lexer.gives_intercalate h).enclose.imp
    (fun q => (q.1 :: ((q.2.1.map Prod.snd).flatMap Prod.fst ++ [q.2.2]),
      .seq kind ⟨some q.1, some q.2.2⟩ ((q.2.1.map Prod.snd).map Prod.snd))) ?_
  rintro ⟨o, ps, c⟩ ⟨ho, ⟨rfl, hps⟩, hc⟩
  refine ⟨⟨.seq ho hc (List.forall_mem_map.mpr fun p hp => (hps p hp).1), ?_⟩, by rw [List.flatMap_map]⟩
  simp only [Form.bare, Form.normal, normalMembers_eq_map, bareMembers_eq_map, List.map_map, Form.seq.injEq, true_and]
  exact List.map_congr_left fun p hp => (hps p hp).2

/-- A form that is a key up to tokens is a key. -/
theorem asKey?_of_bare_eq {f : Form} {k : Key} (h : f.bare = k.toForm.normal) :
    ∃ k', f.asKey? = some k' ∧ k'.bare = k.bare := by
  cases f <;> cases k <;> cases h <;> exact ⟨_, rfl, rfl⟩

/-- What is written for a readable key gives the key. -/
theorem gives_key {k : Key} (h : k.toForm.ReadsBack) :
    Lexer.Gives (k.spell .readable) Prod.fst fun q : List Token × Key => Derives q.1 q.2.toForm ∧ q.2.bare = k.bare := by
  have hk : GivesNormal (k.spell .readable) k.toForm := by
    cases k with
    | str value token => exact givesNormal_str value token
    | keyword keyword token => exact givesNormal_keyword h
  refine hk.imp (fun q => (q.1, q.2.asKey?.getD k)) ?_
  rintro ⟨ts, f⟩ ⟨hd, hn⟩
  obtain ⟨k', hf, hb⟩ := asKey?_of_bare_eq hn
  simp only [hf, Option.getD_some]
  exact ⟨⟨Form.toForm_of_asKey? hf ▸ hd, hb⟩, trivial⟩

/-- What is written for a map gives the entries of the map, if their values do and their keys are readable. -/
theorem givesNormal_map {delims : Delimiters} {pairs : List (Key × Form)}
    (hk : ∀ e ∈ Entries.entries pairs, e.1.toForm.ReadsBack)
    (hv : ∀ e ∈ Entries.entries pairs, GivesNormal (e.2.spell .readable) e.2) :
    GivesNormal ((Form.map delims pairs).spell .readable) (.map delims pairs) := by
  have he : ∀ e ∈ Entries.entries pairs, Lexer.Gives (spellEntry .readable (Prod.map id (Form.spell .readable) e))
      PairPhrase.tokens fun p => (Derives p.keyTokens p.key.toForm ∧ p.key.bare = e.1.bare) ∧
        Derives p.valueTokens p.value ∧ p.value.bare = e.2.normal := by
    intro e he
    have hboth := (gives_key (hk e he)).blank (hv e he)
    exact hboth.imp (fun q => ⟨q.1.1, q.1.2, q.2.1, q.2.2⟩) fun q hq => ⟨hq, rfl⟩
  rw [Form.spell, entries_spellValues, List.map_map]
  refine (Lexer.gives_intercalate he).enclose.imp
    (fun q => (q.1 :: ((q.2.1.map Prod.snd).flatMap PairPhrase.tokens ++ [q.2.2]),
      .map ⟨some q.1, some q.2.2⟩ ((q.2.1.map Prod.snd).map PairPhrase.pair))) ?_
  rintro ⟨o, ps, c⟩ ⟨ho, ⟨hfst, hps⟩, hc⟩
  have hn : (Form.map ⟨some o, some c⟩ ((ps.map Prod.snd).map PairPhrase.pair)).bare = (Form.map delims pairs).normal := by
    rw [normal_map, Form.bare, barePairs_eq_map, ← hfst, List.map_map, List.map_map, List.map_map]
    exact congrArg _ (List.map_congr_left fun p hp => Prod.ext (hps p hp).1.2 (hps p hp).2.2)
  exact ⟨⟨.map ho hc (List.forall_mem_map.mpr fun p hp => (hps p hp).1.1)
    (List.forall_mem_map.mpr fun p hp => (hps p hp).2.1), hn⟩, by rw [List.flatMap_map]⟩

/-- What is written for a readable form gives its normal form. -/
theorem givesNormal {f : Form} (h : f.normal.Readable) : GivesNormal (f.spell .readable) f := by
  induction f with
  | int value token => exact givesNormal_int value token
  | symbol name token => exact givesNormal_symbol (h (.symbol name none) (mem_parts_self _))
  | str value token => exact givesNormal_str value token
  | keyword k token => exact givesNormal_keyword (h (.keyword k none) (mem_parts_self _))
  | bool value => exact givesNormal_bool value
  | builtin function => exact (h (.builtin function) (mem_parts_self _)).elim
  | seq kind delims members ih =>
    have hms : ∀ m ∈ members, m.normal.Readable := by
      intro m hm g hg
      apply h g
      rw [Form.normal, Form.parts, List.mem_cons, normalMembers_eq_map, mem_partsOfMembers]
      exact .inr ⟨m.normal, List.mem_map_of_mem hm, hg⟩
    exact givesNormal_seq fun m hm => ih m hm (hms m hm)
  | map delims pairs ih =>
    have hparts : ∀ e ∈ Entries.entries pairs, e.1.bare.toForm.ReadsBack ∧ e.2.normal.Readable := by
      intro e he
      have hp : ∀ g, g = e.1.bare.toForm ∨ g ∈ e.2.normal.parts → g.ReadsBack := by
        intro g hg
        apply h g
        rw [normal_map, Form.parts, List.mem_cons, mem_partsOfPairs]
        exact .inr ⟨_, List.mem_map_of_mem he, hg⟩
      exact ⟨hp _ (.inl rfl), fun g hg => hp g (.inr hg)⟩
    have hv : ∀ e ∈ Entries.entries pairs, e.2.normal.Readable → GivesNormal (e.2.spell .readable) e.2 :=
      Entries.forall_values_entries (Q := fun v : Form => v.normal.Readable → GivesNormal (v.spell .readable) v) ih
    exact givesNormal_map (fun e he => readsBack_bare.mp (hparts e he).1) fun e he => hv e he (hparts e he).2

/-- What is written for a readable form gives the form. -/
theorem givesForm {f : Form} (h : f.normal.Readable) : GivesForm (f.spell .readable) f := by
  refine (givesNormal h).imp id ?_
  rintro ⟨ts, g⟩ ⟨hd, hb⟩
  have hnormal : g.normal = f.normal := by rw [← normal_bare, hb, normal_normal]
  have hnesting : g.nesting = f.normal.nesting := by rw [← nesting_bare, hb]
  exact ⟨⟨hd, hnormal, Nat.le_of_eq hnesting⟩, rfl⟩

/-! ## Reading and writing -/

/-- What is read back is so without tokens and replaced values. -/
theorem Form.ReadsBack.normal {f : Form} (h : f.ReadsBack) : f.normal.ReadsBack := by cases f <;> exact h

/-- The normal form of a readable form is readable. -/
theorem Form.Readable.normal {f : Form} (h : f.Readable) : f.normal.Readable := forall_parts_normal (fun _ => .normal) h

/-- The normal form is nested no deeper than the form. -/
theorem nesting_normal_le (f : Form) : f.normal.nesting ≤ f.nesting := by
  induction f with
  | int | symbol | str | keyword | bool | builtin => exact Nat.le_refl _
  | seq kind delims members ih =>
    simp only [Form.normal, Form.nesting, normalMembers_eq_map, Nat.add_le_add_iff_right, nestingOfMembers_le_iff,
      List.forall_mem_map]
    exact fun m hm => Nat.le_trans (ih m hm) (nesting_le_of_mem_members hm)
  | map delims pairs ih =>
    have hes : ∀ e ∈ Entries.entries pairs, e.2.normal.nesting ≤ nestingOfValues pairs :=
      Entries.forall_values_entries (Q := fun v : Form => v.normal.nesting ≤ nestingOfValues pairs)
        fun p hp => Nat.le_trans (ih p hp) (nesting_le_of_mem_pairs hp)
    simp only [normal_map, Form.nesting, Nat.add_le_add_iff_right, nestingOfValues_le_iff, List.forall_mem_map]
    exact hes

/-- The readable text of a readable form that is nested within the limit is read as its normal form, up to tokens. -/
theorem readText_print {limit : Nat} {f : Form} (hf : f.normal.Readable) (hn : f.normal.nesting ≤ limit) :
    ∃ g, readText limit (f.print .readable) = .ok g ∧ g.bare = f.normal := by
  obtain ⟨⟨ts, g⟩, ⟨hd, hb⟩, hts⟩ := (givesNormal hf).content
  have hnesting : g.nesting ≤ limit := by
    rw [← nesting_bare, hb]
    exact hn
  rw [← hts] at hd
  exact ⟨g, readTokens_eq_ok_iff.mpr ⟨hd, hnesting⟩, hb⟩

/-- Every form that is read is readable and nested within the limit. The readable text of every readable form that is nested
within the limit is read as a form that is the same and has the same readable text. -/
theorem readable_and_reads_printed (limit : Nat) :
    (∀ source f, readText limit source = .ok f → f.Readable ∧ f.nesting ≤ limit) ∧
      ∀ f : Form, f.normal.Readable → f.normal.nesting ≤ limit →
        ∃ g, readText limit (f.print .readable) = .ok g ∧ (g == f) = true ∧ g.print .readable = f.print .readable := by
  refine ⟨fun source f h => ⟨readable_of_readText h, (readTokens_eq_ok_iff.mp h).2⟩, fun f hf hn => ?_⟩
  obtain ⟨⟨ts, g⟩, ⟨hd, hnormal, hle⟩, hc, ht⟩ := givesForm hf 0 [] Lexer.breaks_nil
  have hts : content (tokenize (f.print .readable)) = ts := by
    rw [tokenize, Form.print, String.toList_ofList, ← List.append_nil (f.spell .readable), ht, Lexer.tokens, List.append_nil]
    exact List.filter_eq_self.mpr fun t ht => by simp [hc t ht]
  refine ⟨g, readTokens_eq_ok_iff.mpr ⟨hts.symm ▸ hd, Nat.le_trans hle hn⟩, same_of_normal_eq hnormal, ?_⟩
  rw [Form.print, Form.print, ← Form.spell_normal, hnormal, Form.spell_normal]

/-- A map with a keyword of no name, whose value was replaced by symbols of structural characters, is read back. -/
theorem printed_structural_symbols_read_back :
    let key : Key := .keyword ⟨.shared, ""⟩ none
    let f : Form := .map {} [(key, .bool true), (key, .list [.symbol "~" none, .symbol "~@" none])]
    ∃ g, readText 2 "\x7b: (~ ~@)\x7d" = .ok g ∧ g.Readable ∧ g.nesting ≤ 2 ∧ (g == f) = true ∧
      g.print .readable = "\x7b: (~ ~@)\x7d" := by
  intro key f
  have colon : Atom ⟨":", 0⟩ (.keyword ⟨.shared, ""⟩ (some ⟨":", 0⟩)) := .keyword rfl
  have tilde : Atom ⟨"~", 0⟩ (.symbol "~" (some ⟨"~", 0⟩)) :=
    atom_iff.mpr ⟨Shape.not_isDelimiter_iff.mpr ⟨rfl, rfl⟩, rfl⟩
  have splice : Atom ⟨"~@", 0⟩ (.symbol "~@" (some ⟨"~@", 0⟩)) :=
    atom_iff.mpr ⟨Shape.not_isDelimiter_iff.mpr ⟨rfl, rfl⟩, rfl⟩
  have hkey := colon.readsBack (Lexer.Whole.tokens ⟨':', [], rfl, by decide, by decide⟩ 0) rfl
  have htilde := tilde.readsBack (Lexer.Whole.tokens ⟨'~', [], rfl, by decide, by decide⟩ 0) rfl
  have hsplice := splice.readsBack (Lexer.Whole.tokens ⟨'~', ['@'], rfl, by decide, by decide⟩ 0) rfl
  have hf : f.Readable := by
    simp only [Form.Readable, f, Form.parts, partsOfPairs, Form.list, partsOfMembers, List.append_nil, List.cons_append,
      List.nil_append, List.forall_mem_cons]
    exact ⟨trivial, hkey, trivial, hkey, trivial, htilde, hsplice, by simp⟩
  obtain ⟨g, hg, hsame, hprint⟩ := (readable_and_reads_printed 2).2 f hf.normal (by decide)
  obtain ⟨hr, hn⟩ := (readable_and_reads_printed 2).1 _ g hg
  exact ⟨g, hg, hr, hn, hsame, hprint⟩

end TinyLisp

import TinyLisp.Proofs.Causes
import TinyLisp.Proofs.Lexemes
import TinyLisp.Proofs.Reports

/-!
# Answers are lines

An answer in a session with the prelude is one line (`answer_one_line`): a result holds no newline, whatever newlines there are in
the string literals of the line, since it is written with escapes; and the report of an error holds none unless the line does.

A form is written on one line if the names in it hold no newline (`Form.Throughout.oneLine_spell`), and names are taken from
tokens, of which only string literals may hold newlines (`Lexer.Cuts.oneLine`). What a report quotes beyond that is a token, a
character of a token, or the text that a form was read from.
-/

namespace TinyLisp

/-- Whether a text holds no newline. -/
def OneLine (cs : List Char) : Prop := '\n' ∉ cs

instance (cs : List Char) : Decidable (OneLine cs) := inferInstanceAs (Decidable ('\n' ∉ cs))

@[simp] theorem oneLine_nil : OneLine [] := List.not_mem_nil

@[simp] theorem oneLine_cons {c : Char} {cs : List Char} : OneLine (c :: cs) ↔ c ≠ '\n' ∧ OneLine cs := by
  simp [OneLine, eq_comm]

@[simp] theorem oneLine_append {cs ds : List Char} : OneLine (cs ++ ds) ↔ OneLine cs ∧ OneLine ds := by simp [OneLine]

/-- A text is one line when no character of it is a newline. -/
theorem oneLine_iff {cs : List Char} : OneLine cs ↔ ∀ c ∈ cs, c ≠ '\n' :=
  ⟨fun h _ hc he => h (he ▸ hc), fun h hn => h _ hn rfl⟩

/-! ## Forms on one line -/

/-- Numerals are written on one line. -/
@[simp] theorem oneLine_spellNat (n : Nat) : OneLine (Numeral.spellNat n) := by
  refine oneLine_iff.mpr fun c hc => ?_
  have hd : c.isDigit = true := (Numeral.isDigits_iff.mp (Numeral.isDigits_spellNat n)).2 c hc
  rintro rfl
  cases hd

@[simp] theorem oneLine_text (n : Nat) : OneLine (Numeral.text n).toList := by simp [Numeral.text]

@[simp] theorem oneLine_spell (i : Int) : OneLine (Numeral.spell i) := by cases i <;> simp [Numeral.spell]

/-- Literals are written on one line, whatever text they are written for. -/
@[simp] theorem oneLine_encode (cs : List Char) : OneLine (Quoted.encode cs) := by
  have hescape : ∀ c, OneLine (Quoted.escape c) := by
    intro c
    unfold Quoted.escape
    split
    · decide
    · decide
    · decide
    · next hn _ => simpa using hn
  refine oneLine_cons.mpr ⟨by decide, oneLine_append.mpr ⟨?_, by decide⟩⟩
  exact fun h => (List.mem_flatMap.mp h).elim fun c ⟨_, hc⟩ => hescape c hc

/-- Lines with a blank between two of them are one line. -/
theorem oneLine_intercalate {members : List (List Char)} (h : ∀ m ∈ members, OneLine m) :
    OneLine ([' '].intercalate members) := by
  induction members with
  | nil => exact oneLine_nil
  | cons m members ih =>
    obtain ⟨hm, hmembers⟩ := List.forall_mem_cons.mp h
    cases members with
    | nil => rwa [List.intercalate_singleton]
    | cons m' members =>
      rw [List.intercalate_cons_cons]
      exact oneLine_append.mpr ⟨oneLine_append.mpr ⟨hm, by decide⟩, ih hmembers⟩

/-- Members that are written on one line each are written on one line together. -/
theorem oneLine_enclose {members : List (List Char)} (h : ∀ m ∈ members, OneLine m) (s : Shape) :
    OneLine (s.enclose members) := by
  obtain ⟨hopening, hclosing⟩ : s.opening ≠ '\n' ∧ s.closing ≠ '\n' := by rcases s with (_ | _) | _ <;> decide
  refine oneLine_cons.mpr ⟨hopening, oneLine_append.mpr ⟨oneLine_intercalate h, ?_⟩⟩
  exact oneLine_cons.mpr ⟨hclosing, oneLine_nil⟩

/-- Whether a form bears no name that holds a newline, and is no function but a binary operation of arithmetic. -/
def Form.OneLineName : Form → Prop
  | .symbol name _ => OneLine name.toList
  | .keyword k _ => OneLine k.name.toList
  | .builtin b => OneLine b.name.toList ∧ b.IsBinary
  | _ => True

/-- A key is written on one line. -/
theorem oneLine_key {k : Key} (h : k.toForm.OneLineName) : OneLine (k.spell .readable) := by
  cases k with
  | str value token => exact oneLine_encode _
  | keyword k token => exact oneLine_cons.mpr ⟨by decide, h⟩

/-- A form is written on one line if no name in it holds a newline. -/
theorem Form.Throughout.oneLine_spell {f : Form} (h : f.Throughout Form.OneLineName) : OneLine (f.spell .readable) := by
  induction f with
  | int value token => exact TinyLisp.oneLine_spell _
  | symbol name token => exact h.self
  | str value token => exact oneLine_encode _
  | keyword k token => exact oneLine_cons.mpr ⟨by decide, h.self⟩
  | bool value => cases value <;> decide
  | builtin b => exact oneLine_append.mpr ⟨oneLine_append.mpr ⟨by decide, h.self.1⟩, by decide⟩
  | seq kind delims members ih =>
    rw [Form.spell, spellMembers_eq_map]
    have hmembers := (Form.throughout_iff.mp h).2.2
    exact oneLine_enclose (List.forall_mem_map.mpr fun m hm => ih m hm (hmembers m hm)) _
  | map delims pairs ih =>
    obtain ⟨-, hkeys, hvalues⟩ := Form.throughout_iff.mp h
    have hpairs : ∀ p ∈ pairs, OneLine (p.1.spell .readable) ∧ OneLine (p.2.spell .readable) := fun p hp =>
      ⟨oneLine_key (hkeys p.1 (List.mem_map_of_mem hp)), ih p hp (hvalues p.2 (List.mem_map_of_mem hp))⟩
    rw [Form.spell, entries_spellValues, List.map_map]
    refine oneLine_enclose (List.forall_mem_map.mpr fun e he => ?_) _
    obtain ⟨hkey, hvalue⟩ := Entries.forall_entries (P := fun k => OneLine (k.spell .readable))
      (Q := fun v : Form => OneLine (v.spell .readable)) hpairs e he
    exact oneLine_append.mpr ⟨hkey, oneLine_cons.mpr ⟨by decide, hvalue⟩⟩

/-- A form in which no name holds a newline is printed on one line. -/
theorem oneLine_print {f : Form} (h : f.Throughout Form.OneLineName) : OneLine (f.print .readable).toList := by
  rw [Form.print, String.toList_ofList]
  exact h.oneLine_spell

/-! ## Names and tokens -/

/-- Of all lexemes only string literals may hold newlines. -/
theorem Lexer.Cuts.oneLine {cs rest : List Char} (h : Cuts cs rest) (hq : cs.head? ≠ some '"') : OneLine cs := by
  have hends : ∀ c, endsBare c = false → c ≠ '\n' := by
    rintro c hc rfl
    cases hc
  cases h with
  | splice => decide
  | @alone c rest hc hs =>
    have hne : c ≠ '\n' := by
      rintro rfl
      cases hc
    exact oneLine_cons.mpr ⟨hne, oneLine_nil⟩
  | closed => exact absurd rfl hq
  | unclosed => exact absurd rfl hq
  | comment hb => exact oneLine_cons.mpr ⟨by decide, oneLine_iff.mpr hb⟩
  | @bare c body rest hg hs hq hk hb =>
    have hne : c ≠ '\n' := by
      rintro rfl
      cases hg
    exact oneLine_cons.mpr ⟨hne, oneLine_iff.mpr fun d hd => hends d (hb d hd)⟩

/-- The atom of a token that is one line bears no name that holds a newline. -/
theorem Atom.oneLineName {t : Token} {f : Form} (h : Atom t f) (ht : OneLine t.chars) : f.OneLineName := by
  cases h with
  | keyword h =>
    rw [h] at ht
    rw [Form.OneLineName, String.toList_ofList]
    exact (oneLine_cons.mp ht).2
  | symbol => exact ht
  | _ => trivial

/-- No atom that is read from a text bears a name that holds a newline. -/
theorem oneLineName_of_mem_tokenize {source : String} {t : Token} (ht : t ∈ tokenize source) {f : Form} (h : Atom t f) :
    f.OneLineName := by
  by_cases hq : t.chars.head? = some '"'
  · cases h with
    | keyword h => simp [h] at hq
    | symbol _ _ _ _ hne => exact absurd hq hne
    | _ => trivial
  · obtain ⟨-, before, after, -, -, hcuts⟩ := (Lexer.tokenized_tokens 0 source.toList).slice t ht
    exact h.oneLineName (hcuts.oneLine hq)

/-- The tokens of a text that is one line are such texts. -/
theorem oneLine_of_mem_tokenize {source : String} (h : OneLine source.toList) {t : Token} (ht : t ∈ tokenize source) :
    OneLine t.chars := by
  obtain ⟨-, before, after, hsource, -⟩ := (Lexer.tokenized_tokens 0 source.toList).slice t ht
  rw [hsource] at h
  exact (oneLine_append.mp (oneLine_append.mp h).2).1

/-- No name that holds a newline is in a collection by itself. -/
theorem oneLineName_of_isCollection {f : Form} (h : f.isCollection = true) : f.OneLineName := by cases f <;> trivial

/-- A form that is read from a text is written on one line. -/
theorem throughout_oneLineName_of_readText {limit : Nat} {source : String} {f : Form} (h : readText limit source = .ok f) :
    f.Throughout Form.OneLineName :=
  throughout_of_readText h (fun _ => oneLineName_of_isCollection) fun _ ht _ =>
    oneLineName_of_mem_tokenize (List.mem_filter.mp ht).1

/-! ## Reports on one line -/

/-- What stands where a closing delimiter was expected is reported on one line. -/
theorem oneLine_foundText {found : Option Token} (h : ∀ t, found = some t → OneLine t.chars) :
    OneLine (foundText found).toList := by
  cases found with
  | none => decide +kernel
  | some t =>
    simp only [foundText, String.toList_append, oneLine_append]
    exact ⟨⟨⟨by decide +kernel, h t rfl⟩, by decide +kernel⟩, oneLine_text _⟩

/-- A report of the reader that names what is in tokens that are one line is one line. -/
theorem ReadError.Names.oneLine_message {ts : List Token} {e : ReadError} (h : e.Names ts) (hts : ∀ t ∈ ts, OneLine t.chars) :
    OneLine e.message.toList := by
  have hforms : ∀ us f, us ⊆ ts → Derives us f → OneLine (f.print .readable).toList := by
    intro us f hus hf
    have hatom : ∀ t ∈ us, ∀ g, Atom t g → g.OneLineName := fun t ht g ha => ha.oneLineName (hts t (hus ht))
    exact oneLine_print (hf.throughout (fun _ => oneLineName_of_isCollection) hatom)
  have hclosing : ∀ shape : Shape, OneLine (String.singleton shape.closing).toList := by
    rintro ((_ | _) | _) <;> decide +kernel
  unfold message
  cases h with
  | nothing => decide +kernel
  | deep limit =>
    simp only [String.toList_append, oneLine_append]
    exact ⟨⟨by decide +kernel, oneLine_text _⟩, by decide +kernel⟩
  | unclosed shape =>
    simp only [String.toList_append, oneLine_append]
    exact ⟨⟨⟨by decide +kernel, hclosing shape⟩, by decide +kernel⟩, oneLine_foundText nofun⟩
  | mismatched ht shape =>
    simp only [String.toList_append, oneLine_append]
    refine ⟨⟨⟨by decide +kernel, hclosing shape⟩, by decide +kernel⟩, oneLine_foundText ?_⟩
    rintro _ ⟨⟩
    exact hts _ ht
  | stray ht =>
    simp only [String.toList_append, oneLine_append]
    exact ⟨⟨⟨by decide +kernel, hts _ ht⟩, by decide +kernel⟩, oneLine_text _⟩
  | trailing ht =>
    simp only [String.toList_append, oneLine_append]
    exact ⟨⟨⟨by decide +kernel, hts _ ht⟩, by decide +kernel⟩, oneLine_text _⟩
  | @spoiled t e ht ha =>
    cases readAtom_eq_error_iff.mp ha with
    | range =>
      simp only [String.toList_append, oneLine_append]
      exact ⟨by decide +kernel, hts t ht⟩
    | unbalanced =>
      simp only [String.toList_append, oneLine_append]
      exact ⟨⟨by decide +kernel, oneLine_text _⟩, by decide +kernel⟩
    | @escape front _ rest c h =>
      have hc : c ≠ '\n' := by
        refine oneLine_iff.mp (hts t ht) c ?_
        simp [h]
      simp only [String.toList_append, oneLine_append]
      refine ⟨⟨by decide +kernel, ?_⟩, by decide +kernel⟩
      rw [String.toList_singleton]
      exact oneLine_cons.mpr ⟨hc, oneLine_nil⟩
  | invalidKey hus hf =>
    simp only [String.toList_append, oneLine_append]
    exact ⟨⟨by decide +kernel, hforms _ _ hus hf⟩, by decide +kernel⟩
  | unpaired hus hk =>
    simp only [Key.unpaired, String.toList_append, oneLine_append]
    exact ⟨⟨by decide +kernel, hforms _ _ hus hk⟩, by decide +kernel⟩

/-- Where a text that is one line is not read, the report is one line. -/
theorem oneLine_message_of_readText {limit : Nat} {source : String} (hsource : OneLine source.toList) {e : ReadError}
    (h : readText limit source = .error e) : OneLine e.message.toList :=
  (names_of_readText h).oneLine_message fun _ ht => oneLine_of_mem_tokenize hsource (List.mem_filter.mp ht).1

/-- Whether a form bears no name that holds a newline, and was read from no text that holds one. -/
def Form.OneLineText (f : Form) : Prop := f.OneLineName ∧ ∀ text, f.sourceText? = some text → OneLine text.toList

/-- Where this is true of all parts of a form, the form is quoted on one line. -/
theorem Form.Throughout.oneLine_literal {f : Form} (h : f.Throughout Form.OneLineText) : OneLine f.literal.toList := by
  unfold Form.literal
  cases htext : f.sourceText? with
  | none => exact oneLine_print (h.imp fun _ hg => hg.1)
  | some text => exact h.self.2 text htext

/-- An error that names forms on one line is reported on one line. -/
theorem EvalError.Arises.oneLine_message {limit : Nat} {raised : Prop} {e : EvalError}
    (h : e.Arises Form.OneLineText limit raised) : OneLine e.message.toList := by
  have htype : ∀ type : FormType, OneLine type.name.toList := by
    rintro (_ | _ | _ | _ | _ | _ | _ | _ | _) <;> decide +kernel
  have hplural : ∀ count, OneLine (plural count).toList := by
    intro count
    unfold plural
    split <;> decide +kernel
  unfold message
  cases h with
  | interrupted => decide +kernel
  | overflow depth =>
    simp only [String.toList_append, oneLine_append]
    exact ⟨⟨⟨by decide +kernel, oneLine_text _⟩, by decide +kernel⟩, oneLine_text _⟩
  | unbound h =>
    simp only [String.toList_append, oneLine_append]
    exact ⟨⟨by decide +kernel, h.1⟩, by decide +kernel⟩
  | notCallable h =>
    simp only [Form.notCallable, String.toList_append, oneLine_append]
    exact ⟨⟨by decide +kernel, h.oneLine_literal⟩, by decide +kernel⟩
  | arity h count =>
    simp only [String.toList_append, oneLine_append]
    exact ⟨⟨⟨⟨⟨⟨⟨by decide +kernel, h.1.1⟩, by decide +kernel⟩, oneLine_text _⟩, by decide +kernel⟩, hplural _⟩,
      by decide +kernel⟩, oneLine_text _⟩
  | operand got =>
    simp only [String.toList_append, oneLine_append]
    exact ⟨⟨⟨by decide +kernel, htype _⟩, by decide +kernel⟩, htype got⟩
  | division => decide +kernel
  | range => decide +kernel

/-! ## Answers -/

/-- Names without newlines are carried from forms to values. -/
theorem carried_oneLineName : Carried Form.OneLineName where
  collection _ := oneLineName_of_isCollection
  ofWord _ := trivial
  isBinary _ h := h.2

/-- No collection counts as read from one text. -/
theorem oneLineText_of_isCollection {f : Form} (h : f.isCollection = true) : f.OneLineText := by
  refine ⟨oneLineName_of_isCollection h, fun text htext => ?_⟩
  rw [Form.sourceText?, if_pos h] at htext
  cases htext

/-- Names and texts without newlines are carried from forms to values. -/
theorem carried_oneLineText : Carried Form.OneLineText where
  collection _ := oneLineText_of_isCollection
  ofWord _ := ⟨trivial, nofun⟩
  isBinary _ h := h.1.2

/-- The atom of a token that is one line was read from no text that holds a newline. -/
theorem Atom.oneLineText {t : Token} {f : Form} (h : Atom t f) (ht : OneLine t.chars) : f.OneLineText := by
  refine ⟨h.oneLineName ht, fun text htext => ?_⟩
  cases h with
  | yes | no => cases htext
  | int | keyword | str | symbol =>
    cases htext
    exact ht

namespace Session

/-- No name in the prelude holds a newline, and none of its functions was read from a text. -/
theorem carries_oneLineText (serial flag : Nat) (settings : Settings) :
    (withPrelude serial flag settings).Carries Form.OneLineText := by
  refine carries_withPrelude (fun name hname op => ⟨⟨?_, rfl, op, rfl⟩, nofun⟩) flag settings
  have hnames : ∀ name ∈ ["+", "-", "*", "/"], OneLine name.toList := by decide +kernel
  exact hnames name hname

/-- No name in the prelude holds a newline. -/
theorem carries_oneLineName (serial flag : Nat) (settings : Settings) :
    (withPrelude serial flag settings).Carries Form.OneLineName :=
  fun b hb => (carries_oneLineText serial flag settings b hb).imp fun _ h => h.1

end Session

/-- Every answer in a session with the prelude is one line. The result of a line is, and so is its echo, whatever newlines the line
holds. If the line holds none, then the report of an error is one line, too. -/
theorem answer_one_line (serial flag : Nat) (settings : Settings) (w : World) (line : String) :
    (∀ out, ((Session.withPrelude serial flag settings).evalLine w line).result = .ok out → OneLine out.toList) ∧
      (∀ out, Session.echoLine line = .ok out → OneLine out.toList) ∧
      (OneLine line.toList →
        (∀ e, ((Session.withPrelude serial flag settings).evalLine w line).result = .error e → OneLine e.message.toList) ∧
          ∀ e, Session.echoLine line = .error e → OneLine e.message.toList) := by
  have hread : ∀ f, readText defaultNesting line = .ok f → f.Throughout Form.OneLineName := fun _ =>
    throughout_oneLineName_of_readText
  refine ⟨fun out hout => ?_, fun out hout => ?_, fun hline => ⟨fun e he => ?_, fun e he => ?_⟩⟩
  · rcases (Session.carries_oneLineName serial flag settings).evalLine_cases carried_oneLineName hread w with
      ⟨e, -, hresult⟩ | ⟨f, e, -, -, -, hresult⟩ | ⟨v, hv, hresult⟩
    · cases hout.symm.trans hresult
    · cases hout.symm.trans hresult
    · cases hout.symm.trans hresult
      exact oneLine_print hv
  · rcases Session.echoLine_cases line with ⟨e, -, hecho⟩ | ⟨f, hr, hecho⟩
    · cases hout.symm.trans hecho
    · cases hout.symm.trans hecho
      exact oneLine_print (hread f hr)
  · have htexts : ∀ f, readText defaultNesting line = .ok f → f.Throughout Form.OneLineText := fun f hf =>
      throughout_of_readText hf (fun _ => oneLineText_of_isCollection) fun t ht _ ha =>
        ha.oneLineText (oneLine_of_mem_tokenize hline (List.mem_filter.mp ht).1)
    rcases (Session.carries_oneLineText serial flag settings).evalLine_cases carried_oneLineText htexts w with
      ⟨e', hr, hresult⟩ | ⟨f, e', -, -, harises, hresult⟩ | ⟨v, -, hresult⟩
    · cases he.symm.trans hresult
      exact oneLine_message_of_readText hline hr
    · cases he.symm.trans hresult
      exact harises.oneLine_message
    · cases he.symm.trans hresult
  · rcases Session.echoLine_cases line with ⟨e', hr, hecho⟩ | ⟨f, -, hecho⟩
    · cases he.symm.trans hecho
      exact oneLine_message_of_readText hline hr
    · cases he.symm.trans hecho

/-- A literal that holds a newline has a result on one line, and an unbound symbol is reported on one line. -/
theorem answer_one_line_of_literal_and_symbol :
    (Session.standard.evalLine {} "\"a\nb\"").result = .ok "\"a\\nb\"" ∧ OneLine "\"a\\nb\"".toList ∧
      (Session.standard.evalLine {} "(a 1)").result = .error (.eval (.unboundSymbol "a")) ∧
      OneLine (Error.eval (.unboundSymbol "a")).message.toList := by
  have hliteral : (Session.standard.evalLine {} "\"a\nb\"").result = .ok "\"a\\nb\"" := by cbv
  have hsymbol : (Session.standard.evalLine {} "(a 1)").result = .error (.eval (.unboundSymbol "a")) := by cbv
  exact ⟨hliteral, (answer_one_line 0 0 {} {} _).1 _ hliteral, hsymbol,
    ((answer_one_line 0 0 {} {} "(a 1)").2.2 (by decide +kernel)).1 _ hsymbol⟩

end TinyLisp

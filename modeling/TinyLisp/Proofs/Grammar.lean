import TinyLisp.Proofs.Atoms
import TinyLisp.Proofs.Relocation

/-!
# The grammar of forms

A form is an atom, or a collection of forms between its delimiters; a map alternates between keys and values. `Derives` says so
for a list of tokens without comments. `readTokens_eq_ok_iff` says that reading accepts exactly what the grammar derives, as far
as the limit on nesting allows.

Both directions go through the pass. What the pass has read so far is always derived by its state (`State.Spells`), one step
keeps this (`step_spells`), and so does a whole run. The other way, the tokens of a derived form take the pass from any stack to
where the form is delivered to it (`passes_of_derives`).
-/

namespace TinyLisp

/-! ## Derivations -/

/-- A key and a value of a map with the tokens of each. -/
structure PairPhrase where
  keyTokens : List Token
  key : Key
  valueTokens : List Token
  value : Form

namespace PairPhrase

/-- The tokens of the key and of the value. -/
def tokens (p : PairPhrase) : List Token := p.keyTokens ++ p.valueTokens

/-- The key and the value. -/
def pair (p : PairPhrase) : Key × Form := (p.key, p.value)

end PairPhrase

/-- The tokens are those of the form: of an atom, of a list or vector of forms, or of a map of keys and forms. -/
inductive Derives : List Token → Form → Prop where
  | atom {t : Token} {f : Form} (h : Atom t f) : Derives [t] f
  | seq {kind : SeqKind} {o c : Token} {phrases : List (List Token × Form)} (ho : o.chars = [(Shape.seq kind).opening])
    (hc : c.chars = [(Shape.seq kind).closing]) (hm : ∀ p ∈ phrases, Derives p.1 p.2) :
    Derives (o :: (phrases.flatMap (·.1) ++ [c])) (.seq kind ⟨some o, some c⟩ (phrases.map (·.2)))
  | map {o c : Token} {phrases : List PairPhrase} (ho : o.chars = [Shape.map.opening]) (hc : c.chars = [Shape.map.closing])
    (hk : ∀ p ∈ phrases, Derives p.keyTokens p.key.toForm) (hv : ∀ p ∈ phrases, Derives p.valueTokens p.value) :
    Derives (o :: (phrases.flatMap PairPhrase.tokens ++ [c])) (.map ⟨some o, some c⟩ (phrases.map PairPhrase.pair))

namespace Pass

/-! ## What the pass has read is derived -/

/-- An open collection stands for the tokens from its opening delimiter on. Its members are nested no deeper than allowed. -/
inductive Frame.Spells (allowed : Nat) : Frame → List Token → Prop where
  | seq {kind : SeqKind} {o : Token} {phrases : List (List Token × Form)} (ho : o.chars = [(Shape.seq kind).opening])
    (hm : ∀ p ∈ phrases, Derives p.1 p.2 ∧ p.2.nesting ≤ allowed) :
    Spells allowed (.seq kind o (phrases.map (·.2))) (o :: phrases.flatMap (·.1))
  | paired {o : Token} {phrases : List PairPhrase} (ho : o.chars = [Shape.map.opening])
    (hk : ∀ p ∈ phrases, Derives p.keyTokens p.key.toForm)
    (hv : ∀ p ∈ phrases, Derives p.valueTokens p.value ∧ p.value.nesting ≤ allowed) :
    Spells allowed (.map o (phrases.map PairPhrase.pair) none) (o :: phrases.flatMap PairPhrase.tokens)
  | pending {o : Token} {phrases : List PairPhrase} {ts : List Token} {k : Key} (ho : o.chars = [Shape.map.opening])
    (hk : ∀ p ∈ phrases, Derives p.keyTokens p.key.toForm)
    (hv : ∀ p ∈ phrases, Derives p.valueTokens p.value ∧ p.value.nesting ≤ allowed) (h : Derives ts k.toForm) :
    Spells allowed (.map o (phrases.map PairPhrase.pair) (some k)) (o :: (phrases.flatMap PairPhrase.tokens ++ ts))

/-- The open collections stand for the tokens read so far, and there are no more of them than the limit allows. -/
inductive Opened (limit : Nat) : List Frame → List Token → Prop where
  | nil : Opened limit [] []
  | cons {frame : Frame} {outer : List Frame} {us vs : List Token} (ho : Opened limit outer us)
    (hl : outer.length < limit) (hf : frame.Spells (limit - outer.length - 1) vs) : Opened limit (frame :: outer) (us ++ vs)

/-- A state stands for the tokens read so far. -/
inductive State.Spells (limit : Nat) : State → List Token → Prop where
  | reading {stack : List Frame} {ts : List Token} (h : Opened limit stack ts) : Spells limit (.reading stack) ts
  | complete {f : Form} {ts : List Token} (h : Derives ts f) (hn : f.nesting ≤ limit) : Spells limit (.complete f) ts

/-- A collection that was just opened stands for its delimiter. -/
theorem Frame.spells_start {t : Token} {shape : Shape} (h : t.chars = [shape.opening]) (allowed : Nat) :
    (Frame.start t shape).Spells allowed [t] := by
  cases shape with
  | seq kind => exact @Frame.Spells.seq allowed kind t [] h (by simp)
  | map => exact @Frame.Spells.paired allowed t [] h (by simp) (by simp)

/-- A collection that takes a form stands for the tokens of the form, too. -/
theorem Frame.Spells.add {allowed : Nat} {frame frame' : Frame} {us ts : List Token} {f : Form}
    (h : frame.Spells allowed us) (hf : Derives ts f) (hn : f.nesting ≤ allowed) (ha : frame.add f = .ok frame') :
    frame'.Spells allowed (us ++ ts) := by
  cases h with
  | @seq kind o phrases ho hm =>
    cases ha
    have hm' : ∀ p ∈ phrases ++ [(ts, f)], Derives p.1 p.2 ∧ p.2.nesting ≤ allowed :=
      List.forall_mem_append.mpr ⟨hm, by simpa using ⟨hf, hn⟩⟩
    simpa using Frame.Spells.seq ho hm'
  | @paired o phrases ho hk hv =>
    rw [Frame.add_key] at ha
    cases hkey : f.toKey with
    | error e => simp [hkey, Except.map] at ha
    | ok k =>
      rw [hkey] at ha
      cases ha
      exact .pending ho hk hv (toForm_of_toKey hkey ▸ hf)
  | @pending o phrases vs k ho hk hv h =>
    cases ha
    have hk' : ∀ p ∈ phrases ++ [⟨vs, k, ts, f⟩], Derives p.keyTokens p.key.toForm :=
      List.forall_mem_append.mpr ⟨hk, by simpa using h⟩
    have hv' : ∀ p ∈ phrases ++ [⟨vs, k, ts, f⟩], Derives p.valueTokens p.value ∧ p.value.nesting ≤ allowed :=
      List.forall_mem_append.mpr ⟨hv, by simpa using ⟨hf, hn⟩⟩
    simpa [PairPhrase.tokens, PairPhrase.pair] using Frame.Spells.paired ho hk' hv'

/-- A collection that is closed stands for its tokens, one level deeper than its members. -/
theorem Frame.Spells.close {allowed : Nat} {frame : Frame} {us : List Token} {t : Token} {f : Form}
    (h : frame.Spells allowed us) (ht : t.chars = [frame.shape.closing]) (hc : frame.close t = .ok f) :
    Derives (us ++ [t]) f ∧ f.nesting ≤ allowed + 1 := by
  cases h with
  | @seq kind o phrases ho hm =>
    cases hc
    refine ⟨.seq ho ht fun p hp => (hm p hp).1, ?_⟩
    simp only [Form.nesting, Nat.add_le_add_iff_right, nestingOfMembers_le_iff, List.forall_mem_map]
    exact fun p hp => (hm p hp).2
  | @paired o phrases ho hk hv =>
    cases hc
    refine ⟨.map ho ht hk fun p hp => (hv p hp).1, ?_⟩
    simp only [Form.nesting, Nat.add_le_add_iff_right, nestingOfValues_le_iff, List.forall_mem_map]
    exact fun p hp => (hv p hp).2
  | pending => cases hc

/-- There are no more open collections than the limit allows. -/
theorem Opened.length_le {limit : Nat} {stack : List Frame} {us : List Token} (h : Opened limit stack us) :
    stack.length ≤ limit := by
  cases h with
  | nil => exact Nat.zero_le _
  | cons _ hl _ => exact hl

/-- A form that is delivered to the open collections is read with them. -/
theorem Opened.deliver {limit : Nat} {stack : List Frame} {us ts : List Token} {f : Form} {s : State}
    (h : Opened limit stack us) (hf : Derives ts f) (hn : f.nesting + stack.length ≤ limit)
    (hd : deliver f stack = .ok s) : s.Spells limit (us ++ ts) := by
  cases h with
  | nil =>
    cases hd
    exact .complete hf hn
  | @cons frame outer us vs ho hl hframe =>
    obtain ⟨frame', ha, rfl⟩ := exists_of_deliver_cons hd
    rw [List.append_assoc]
    rw [List.length_cons] at hn
    exact .reading (.cons ho hl (hframe.add hf (by omega) ha))

/-- One step keeps the state standing for what was read. -/
theorem step_spells {limit : Nat} {s s' : State} {us : List Token} {t : Token} (h : s.Spells limit us)
    (hs : step limit s t = .ok s') : s'.Spells limit (us ++ [t]) := by
  cases h with
  | complete => cases hs
  | @reading stack us h =>
    rcases step_ok_cases hs with ⟨shape, ht, hlt, rfl⟩ | ⟨f, hdelimiter, ha, hd⟩ | ⟨frame, outer, f, rfl, ht, hc, hd⟩
    · exact .reading (.cons h hlt (Frame.spells_start ht _))
    · have hatom : Atom t f := atom_iff.mpr ⟨Shape.not_isDelimiter_iff.mpr hdelimiter, ha⟩
      have := h.length_le
      exact h.deliver (.atom hatom) (by rw [hatom.nesting]; omega) hd
    · cases h with
      | cons ho hl hframe =>
        obtain ⟨hf, hn⟩ := hframe.close ht hc
        rw [List.append_assoc]
        exact ho.deliver hf (by omega) hd

/-- A run keeps it, so that a form at its end is derived by all that was read. -/
theorem runFrom_sound {limit : Nat} {s : State} {us ts : List Token} {f : Form} (h : s.Spells limit us)
    (hr : runFrom limit s ts = .ok f) : Derives (us ++ ts) f ∧ f.nesting ≤ limit := by
  induction ts generalizing s us with
  | nil =>
    cases h with
    | @reading stack us h => cases stack <;> cases hr
    | complete h hn =>
      cases hr
      rw [List.append_nil]
      exact ⟨h, hn⟩
  | cons t ts ih =>
    rw [runFrom_cons] at hr
    cases hs : step limit s t with
    | error e => simp [hs, Except.bind] at hr
    | ok s' =>
      rw [hs] at hr
      simpa using ih (step_spells h hs) hr

/-! ## What is derived is read -/

/-- From any stack that leaves room for the form, its tokens take the pass to where the form is delivered. -/
def Passes (limit : Nat) (ts : List Token) (f : Form) : Prop :=
  ∀ (stack : List Frame) (rest : List Token), f.nesting + stack.length ≤ limit →
    runFrom limit (.reading stack) (ts ++ rest) = (deliver f stack).bind fun s => runFrom limit s rest

/-- The tokens of members take the pass through an open sequence. -/
theorem runFrom_phrases {limit : Nat} {phrases : List (List Token × Form)} (hp : ∀ p ∈ phrases, Passes limit p.1 p.2)
    {outer : List Frame} (hn : ∀ p ∈ phrases, p.2.nesting + (outer.length + 1) ≤ limit) (kind : SeqKind) (o : Token)
    (ms : List Form) (rest : List Token) :
    runFrom limit (.reading (.seq kind o ms :: outer)) (phrases.flatMap (·.1) ++ rest) =
      runFrom limit (.reading (.seq kind o (ms ++ phrases.map (·.2)) :: outer)) rest := by
  induction phrases generalizing ms with
  | nil => simp
  | cons p ps ih =>
    obtain ⟨hp1, hps⟩ := List.forall_mem_cons.mp hp
    obtain ⟨hn1, hns⟩ := List.forall_mem_cons.mp hn
    rw [List.flatMap_cons, List.append_assoc, hp1 (.seq kind o ms :: outer) _ hn1]
    simp only [deliver, Frame.add, Except.map, Except.bind]
    rw [ih hps hns, List.map_cons, List.append_assoc]
    rfl

/-- The tokens of keys and values take the pass through an open map. -/
theorem runFrom_pairPhrases {limit : Nat} {phrases : List PairPhrase}
    (hk : ∀ p ∈ phrases, Passes limit p.keyTokens p.key.toForm) (hv : ∀ p ∈ phrases, Passes limit p.valueTokens p.value)
    {outer : List Frame} (hl : outer.length + 1 ≤ limit)
    (hn : ∀ p ∈ phrases, p.value.nesting + (outer.length + 1) ≤ limit) (o : Token) (ps : List (Key × Form))
    (rest : List Token) :
    runFrom limit (.reading (.map o ps none :: outer)) (phrases.flatMap PairPhrase.tokens ++ rest) =
      runFrom limit (.reading (.map o (ps ++ phrases.map PairPhrase.pair) none :: outer)) rest := by
  induction phrases generalizing ps with
  | nil => simp
  | cons p more ih =>
    obtain ⟨hk1, hks⟩ := List.forall_mem_cons.mp hk
    obtain ⟨hv1, hvs⟩ := List.forall_mem_cons.mp hv
    obtain ⟨hn1, hns⟩ := List.forall_mem_cons.mp hn
    have hkey : p.key.toForm.toKey = .ok p.key := by simp [Form.toKey]
    rw [List.flatMap_cons, PairPhrase.tokens, List.append_assoc, List.append_assoc, hk1 _ _ (by simpa using hl)]
    simp only [deliver, Frame.add_key, hkey, Except.map, Except.bind]
    rw [hv1 (.map o ps (some p.key) :: outer) _ hn1]
    simp only [deliver, Frame.add, Except.map, Except.bind]
    rw [ih hks hvs hns, List.map_cons, List.append_assoc]
    rfl

/-- The tokens of a derived form take the pass to where the form is delivered. -/
theorem passes_of_derives {ts : List Token} {f : Form} (h : Derives ts f) (limit : Nat) : Passes limit ts f := by
  induction h with
  | @atom t f h =>
    intro stack rest _
    obtain ⟨hd, ha⟩ := atom_iff.mp h
    obtain ⟨ho, hc⟩ := Shape.not_isDelimiter_iff.mp hd
    rw [List.singleton_append, runFrom_cons, step_atom ho hc, ha]
    rfl
  | @seq kind o c phrases ho hc hm ih =>
    intro stack rest hn
    simp only [Form.nesting] at hn
    have hms : ∀ p ∈ phrases, p.2.nesting + (stack.length + 1) ≤ limit := by
      intro p hp
      have := nesting_le_of_mem_members (List.mem_map_of_mem (f := (·.2)) hp)
      omega
    rw [List.cons_append, List.append_assoc, runFrom_cons, step_opening (ho ▸ Shape.ofOpening?_opening (.seq kind)),
      if_neg (by omega)]
    simp only [Frame.start, Except.bind]
    rw [runFrom_phrases ih hms, List.singleton_append, runFrom_cons, step_close hc]
    rfl
  | @map o c phrases ho hc hk hv ihk ihv =>
    intro stack rest hn
    simp only [Form.nesting] at hn
    have hvs : ∀ p ∈ phrases, p.value.nesting + (stack.length + 1) ≤ limit := by
      intro p hp
      have : p.value.nesting ≤ _ := nesting_le_of_mem_pairs (List.mem_map_of_mem (f := PairPhrase.pair) hp)
      omega
    rw [List.cons_append, List.append_assoc, runFrom_cons, step_opening (ho ▸ Shape.ofOpening?_opening .map),
      if_neg (by omega)]
    simp only [Frame.start, Except.bind]
    rw [runFrom_pairPhrases ihk ihv (by omega) hvs, List.singleton_append, runFrom_cons, step_close hc]
    rfl

/-- The pass accepts what the grammar derives within the limit, and nothing else. -/
theorem run_eq_ok_iff {limit : Nat} {ts : List Token} {f : Form} :
    run limit ts = .ok f ↔ Derives ts f ∧ f.nesting ≤ limit := by
  constructor
  · intro h
    exact runFrom_sound (.reading .nil) h
  · rintro ⟨h, hn⟩
    have hp := passes_of_derives h limit [] [] (by simpa using hn)
    rw [List.append_nil] at hp
    rw [run, hp]
    rfl

end Pass

/-- Reading accepts what the grammar derives within the limit, and nothing else. -/
theorem readTokens_eq_ok_iff {limit : Nat} {ts : List Token} {f : Form} :
    readTokens limit ts = .ok f ↔ Derives (content ts) f ∧ f.nesting ≤ limit := by
  rw [Pass.readTokens_eq_run, Pass.run_eq_ok_iff]

/-- Tokens that agree in their texts derive forms that agree in all but the offsets of their tokens. -/
theorem Derives.unplaced_eq {us vs : List Token} {f g : Form} (hf : Derives us f) (hg : Derives vs g)
    (h : us.map Token.text = vs.map Token.text) : f.unplaced = g.unplaced := by
  have hu : us.map Token.unplaced = vs.map Token.unplaced := by
    have := congrArg (List.map fun text => (⟨text, 0⟩ : Token)) h
    rw [List.map_map, List.map_map] at this
    exact this
  have hrf := Pass.run_relocate (fun _ => 0) (max f.nesting g.nesting) us
  have hrg := Pass.run_relocate (fun _ => 0) (max f.nesting g.nesting) vs
  rw [Pass.run_eq_ok_iff.mpr ⟨hf, by omega⟩] at hrf
  rw [Pass.run_eq_ok_iff.mpr ⟨hg, by omega⟩] at hrg
  have heq : relocateResult (fun _ => 0) (Form.relocate fun _ => 0) (.ok f) =
      relocateResult (fun _ => 0) (Form.relocate fun _ => 0) (.ok g) := by
    rw [← hrf, ← hrg]
    exact congrArg _ hu
  exact Except.ok.inj heq

/-! ## Accepting exactly the grammar -/

/-- Reading a text gives a form exactly when the grammar derives the form from the content of the text and no more collections
are nested in it than the limit allows. The texts of the tokens decide which form that is, up to offsets. -/
theorem readText_eq_ok_iff_derives (limit : Nat) (source : String) :
    (∀ f, readText limit source = .ok f ↔ Derives (content (tokenize source)) f ∧ f.nesting ≤ limit) ∧
      ∀ (us vs : List Token) (f g : Form), us.map Token.text = vs.map Token.text → Derives us f → Derives vs g →
        f.unplaced = g.unplaced :=
  ⟨fun _ => readTokens_eq_ok_iff, fun _ _ _ _ h hf hg => hf.unplaced_eq hg h⟩

/-- A list of a keyword is the same form wherever it stands. -/
theorem keyword_list_unplaced_eq :
    (Form.seq .list ⟨some ⟨"(", 0⟩, some ⟨")", 3⟩⟩ [.keyword ⟨.shared, "a"⟩ (some ⟨":a", 1⟩)]).unplaced =
      (Form.seq .list ⟨some ⟨"(", 5⟩, some ⟨")", 9⟩⟩ [.keyword ⟨.shared, "a"⟩ (some ⟨":a", 7⟩)]).unplaced := by
  have hd : Derives [⟨"(", 0⟩, ⟨":a", 1⟩, ⟨")", 3⟩] (.seq .list ⟨_, _⟩ [.keyword ⟨.shared, "a"⟩ (some ⟨":a", 1⟩)]) :=
    @Derives.seq .list ⟨"(", 0⟩ ⟨")", 3⟩ [([⟨":a", 1⟩], _)] rfl rfl (by simpa using .atom (.keyword rfl))
  have hd' : Derives [⟨"(", 5⟩, ⟨":a", 7⟩, ⟨")", 9⟩] (.seq .list ⟨_, _⟩ [.keyword ⟨.shared, "a"⟩ (some ⟨":a", 7⟩)]) :=
    @Derives.seq .list ⟨"(", 5⟩ ⟨")", 9⟩ [([⟨":a", 7⟩], _)] rfl rfl (by simpa using .atom (.keyword rfl))
  exact (readText_eq_ok_iff_derives 1 "(:a)").2 _ _ _ _ (by rfl) hd hd'

end TinyLisp

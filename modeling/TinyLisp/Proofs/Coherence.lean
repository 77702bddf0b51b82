import Mathlib.Data.List.Basic
import TinyLisp.Proofs.Entries
import TinyLisp.Proofs.Evaluation
import TinyLisp.Proofs.IndexedMap

/-!
# List and index of a map agree

`IndexedMap.Coherent` says of a kept map that its members alternate between keys and values and that its index is the one that
can be told from them: for every text of a key, once and in the order of first addition, the key form that comes first and the
value that comes last. What the map answers follows from that (`Coherent.get?_eq`, `Coherent.entries_eq`, `Coherent.size_eq`).

A kept map is made by the operations of maps (`Made`), and each of them keeps it the map of some keys and values
(`Made.exists_ofPairs`), also where it was half complete in between. Forms hold no other maps: the maps of a form that was read
are those that the reader made member by member (`mapsKept_of_readText`), and what replacing values keeps of all maps is kept by
evaluation (`mapsKept_eval`). `kept_maps_coherent` puts this together.
-/

namespace TinyLisp

namespace IndexedMap

/-! ## What the members tell -/

/-- The members two by two: what stands in the place of a key, with what follows it. -/
def chunks : List Form → List (Form × Form)
  | key :: value :: rest => (key, value) :: chunks rest
  | _ => []

/-- The text that a form is found by, if it is a key. -/
def keyText? (f : Form) : Option String := f.asKey?.map Key.index

/-- The texts that the keys among the members are found by. -/
def keyTexts (members : List Form) : List String := (chunks members).filterMap fun c => keyText? c.1

/-- The keys with the given text, each with the value that follows it. -/
def under (members : List Form) (text : String) : List (Form × Form) :=
  (chunks members).filter fun c => keyText? c.1 == some text

/-- The first key with the given text. -/
def firstKey? (members : List Form) (text : String) : Option Form := (under members text).head?.map Prod.fst

/-- The value that follows the last key with the given text. -/
def lastValue? (members : List Form) (text : String) : Option Form := (under members text).getLast?.map Prod.snd

/-- A map whose members alternate between keys and values and whose index is the one that can be told from them. -/
structure Coherent (m : IndexedMap) : Prop where
  /-- Every key has a value. -/
  even : m.members.length % 2 = 0
  /-- Only strings and keywords stand in the place of a key. -/
  keys : ∀ i f, i % 2 = 0 → m.members[i]? = some f → f.asKey?.isSome = true
  /-- The index holds the text of every key once, in the order of first addition. -/
  texts : m.index.map Prod.fst = (keyTexts m.members).eraseDups
  /-- With a text goes the key that came first. -/
  first : ∀ e ∈ m.index, firstKey? m.members e.1 = some e.2.1
  /-- With a text goes the value that came last. -/
  last : ∀ e ∈ m.index, lastValue? m.members e.1 = some e.2.2

/-- A text belongs to a key exactly when there is something under it. -/
theorem under_eq_nil_iff {members : List Form} {text : String} : under members text = [] ↔ text ∉ keyTexts members := by
  simp [under, keyTexts, List.filter_eq_nil_iff, List.mem_filterMap]

namespace Coherent

variable {m : IndexedMap}

/-- A key has the value that follows the last member that is found by the same text. -/
theorem get?_eq (h : m.Coherent) (key : Form) :
    m.get? key = key.asKey?.bind fun k => lastValue? m.members k.index := by
  unfold get?
  cases key.asKey? with
  | none => rfl
  | some k =>
    rw [Option.bind_some, Option.bind_some]
    cases hl : m.index.lookup k.index with
    | some e =>
      obtain ⟨before, after, hindex, -⟩ := List.lookup_eq_some_iff.mp hl
      have hmem : (k.index, e) ∈ m.index := by simp [hindex]
      exact (h.last _ hmem).symm
    | none =>
      have htext : k.index ∉ keyTexts m.members := by
        rw [← List.mem_eraseDups, ← h.texts]
        rintro hmem
        obtain ⟨e, he, htext⟩ := List.mem_map.mp hmem
        have hne := List.lookup_eq_none_iff.mp hl e he
        simp [htext] at hne
      rw [lastValue?, under_eq_nil_iff.mpr htext]
      rfl

/-- The entries are the first keys with the last values, in the order in which the keys came first. -/
theorem entries_eq (h : m.Coherent) :
    m.entries = (keyTexts m.members).eraseDups.filterMap fun text =>
      (firstKey? m.members text).bind fun key => (lastValue? m.members text).map fun value => (key, value) := by
  rw [entries, ← h.texts, List.filterMap_map, ← List.filterMap_eq_map]
  refine List.filterMap_congr fun e he => ?_
  simp only [Function.comp, h.first e he, h.last e he, Option.bind_some, Option.map_some]

/-- There are as many entries as texts of keys. -/
theorem size_eq (h : m.Coherent) : m.size = (keyTexts m.members).eraseDups.length := by
  rw [size, ← h.texts, List.length_map]

end Coherent

/-! ## Maps of keys and values -/

@[simp] theorem keyText?_toForm (k : Key) : keyText? k.toForm = some k.index := by
  rw [keyText?, Form.asKey?_toForm, Option.map_some]

/-- Keys and values are found two by two. -/
theorem chunks_alternate (pairs : List (Key × Form)) : chunks (alternate pairs) = pairs.map (Prod.map Key.toForm id) := by
  induction pairs with
  | nil => rfl
  | cons p rest ih =>
    rw [alternate_cons, chunks, ih]
    rfl

theorem keyTexts_alternate (pairs : List (Key × Form)) : keyTexts (alternate pairs) = Entries.indices pairs := by
  simp [keyTexts, chunks_alternate, Entries.indices, List.filterMap_map, List.filterMap_eq_map']

theorem under_alternate (pairs : List (Key × Form)) (text : String) :
    under (alternate pairs) text = (pairs.filter (·.1.index == text)).map (Prod.map Key.toForm id) := by
  simp [under, chunks_alternate, List.filter_map, Function.comp_def]

/-- What stands in the place of a key among keys and values is a key. -/
theorem isSome_asKey?_of_getElem?_alternate {pairs : List (Key × Form)} {i : Nat} {f : Form} (hi : i % 2 = 0)
    (h : (alternate pairs)[i]? = some f) : f.asKey?.isSome = true := by
  induction pairs generalizing i with
  | nil => cases h
  | cons p rest ih =>
    rw [alternate_cons] at h
    rcases i with _ | _ | i
    · obtain rfl : p.1.toForm = f := by simpa using h
      rw [Form.asKey?_toForm, Option.isSome_some]
    · omega
    · exact ih (i := i) (by omega) h

/-- The map of keys and values is coherent. -/
theorem coherent_ofPairs (delims : Delimiters) (pairs : List (Key × Form)) : (ofPairs delims pairs).Coherent where
  even := by
    rw [ofPairs, length_alternate]
    omega
  keys i f hi hf := isSome_asKey?_of_getElem?_alternate hi hf
  texts := by
    have htexts : (indexOf pairs).map Prod.fst = Entries.indices (Entries.entries pairs) := by
      simp [indexOf, Entries.indices]
    rw [ofPairs, htexts, keyTexts_alternate, Entries.indices_entries]
  first := by
    intro e he
    obtain ⟨p, hp, rfl⟩ := List.mem_map.mp he
    have hfirst : (pairs.find? (·.1.index == p.1.index)).map Prod.fst = some p.1 := by
      rw [← Entries.find?_entries, Entries.find?_of_mem (Entries.nodup_entries pairs) hp, Option.map_some]
    rw [firstKey?, ofPairs, under_alternate, List.head?_map, List.head?_filter, Option.map_map]
    exact (Option.map_map Key.toForm Prod.fst _).symm.trans (congrArg (Option.map Key.toForm) hfirst)
  last := by
    intro e he
    obtain ⟨p, hp, rfl⟩ := List.mem_map.mp he
    have hlast : Entries.get? pairs p.1.index = some p.2 := by
      rw [← Entries.get?_entries, Entries.get?_of_mem (Entries.nodup_entries pairs) hp]
    rw [Entries.get?_eq_getLast?] at hlast
    rw [lastValue?, ofPairs, under_alternate, List.getLast?_map, Option.map_map]
    exact hlast

/-! ## How maps are made -/

/-- The maps that the operations of maps make, one after the other, with any function of any effects to replace values. A copy of
a map is that map. -/
inductive Made : IndexedMap → Prop where
  | new : Made {}
  | ofMembers {members : List Form} {m : IndexedMap} : ofMembers members = .ok m → Made m
  | assoc {m m' : IndexedMap} {key value : Form} : Made m → m.assoc key value = .ok m' → Made m'
  | start {m : IndexedMap} (opening : Token) : Made m → Made (m.start opening)
  | finish {m : IndexedMap} (closing : Token) : Made m → Made (m.finish closing)
  | mapValues {ε σ : Type} {act : Form → ExceptT ε (StateM σ) Form} {s s' : σ} {m m' : IndexedMap} :
      Made m → m.mapValues act s = (.ok m', s') → Made m'
  | readMembers {limit depth : Nat} {ts : List Token} {m m' : IndexedMap} {after : Fewer ts} :
      Made m → m.readMembers limit depth ts = .ok (m', after) → Made m'

/-- A result that was changed afterwards is the change of a result. -/
theorem exists_of_map_eq_ok {ε σ α β : Type} {g : α → β} {act : ExceptT ε (StateM σ) α} {s s' : σ} {b : β}
    (h : (g <$> act) s = (.ok b, s')) : ∃ a, act s = (.ok a, s') ∧ b = g a := by
  simp only [Functor.map, ExceptT.map, ExceptT.mk, bind, StateT.bind, pure] at h
  rcases ha : act s with ⟨_ | a, s''⟩ <;> rw [ha] at h <;> cases h
  exact ⟨a, rfl, rfl⟩

/-- A success that was changed afterwards is the change of a success. -/
theorem exists_of_except_map_eq_ok {ε α β : Type} {g : α → β} {r : Except ε α} {b : β} (h : r.map g = .ok b) :
    ∃ a, r = .ok a ∧ b = g a := by
  cases r with
  | error e => cases h
  | ok a => exact ⟨a, rfl, (Except.ok.inj h).symm⟩

/-- Every map that is made is the map of keys and values. -/
theorem Made.exists_ofPairs {m : IndexedMap} (h : Made m) : ∃ delims pairs, m = ofPairs delims pairs := by
  induction h with
  | new => exact ⟨{}, [], rfl⟩
  | ofMembers h =>
    rw [ofMembers_eq] at h
    obtain ⟨pairs, -, rfl⟩ := exists_of_except_map_eq_ok h
    exact ⟨_, pairs, rfl⟩
  | assoc _ h ih =>
    obtain ⟨delims, pairs, rfl⟩ := ih
    rw [assoc_ofPairs] at h
    obtain ⟨pairs', -, rfl⟩ := exists_of_except_map_eq_ok h
    exact ⟨delims, pairs', rfl⟩
  | start opening _ ih =>
    obtain ⟨delims, pairs, rfl⟩ := ih
    exact ⟨_, pairs, rfl⟩
  | finish closing _ ih =>
    obtain ⟨delims, pairs, rfl⟩ := ih
    exact ⟨_, pairs, rfl⟩
  | mapValues _ h ih =>
    obtain ⟨delims, pairs, rfl⟩ := ih
    rw [mapValues_ofPairs] at h
    obtain ⟨pairs', -, rfl⟩ := exists_of_map_eq_ok h
    exact ⟨delims, pairs', rfl⟩
  | readMembers _ h ih =>
    obtain ⟨delims, pairs, rfl⟩ := ih
    rw [readMembers_ofPairs] at h
    obtain ⟨r, -, hr⟩ := exists_of_except_map_eq_ok h
    exact ⟨_, _, congrArg Prod.fst hr⟩

/-- Every map that is made is coherent. -/
theorem Made.coherent {m : IndexedMap} (h : Made m) : m.Coherent := by
  obtain ⟨delims, pairs, rfl⟩ := h.exists_ofPairs
  exact coherent_ofPairs delims pairs

/-- Whether replacing values, with any function of any effects, keeps a property of maps. -/
def StableUnderValues (P : IndexedMap → Prop) : Prop :=
  ∀ {ε σ : Type} {act : Form → ExceptT ε (StateM σ) Form} {s s' : σ} {m m' : IndexedMap},
    P m → m.mapValues act s = (.ok m', s') → P m'

/-- The function that replaces whatever it is given by the next of the forms that are its state. -/
def nextOf : Form → ExceptT Unit (StateM (List Form)) Form
  | _, [] => (.error (), [])
  | _, v :: vs => (.ok v, vs)

/-- Replacing values can lead to any other values under the same keys. -/
theorem traverseValues_nextOf {pairs entries : List (Key × Form)} (h : entries.map Prod.fst = pairs.map Prod.fst) :
    Form.traverseValues nextOf pairs (entries.map Prod.snd) = (.ok entries, []) := by
  induction pairs generalizing entries with
  | nil =>
    obtain rfl : entries = [] := by simpa using h
    rfl
  | cons p rest ih =>
    obtain ⟨⟨k, v⟩, entries, rfl, rfl, hrest⟩ := List.map_eq_cons_iff.mp h
    have hnext : nextOf p.2 (v :: entries.map Prod.snd) = (.ok v, entries.map Prod.snd) := rfl
    rw [List.map_cons, Form.traverseValues, Action.bind_ok hnext, Action.bind_ok (ih hrest)]
    rfl

/-- A property that replacing values keeps goes over to any other values under the same keys. -/
theorem StableUnderValues.of_keys {P : IndexedMap → Prop} (h : StableUnderValues P) {delims : Delimiters}
    {pairs entries : List (Key × Form)} (hkeys : entries.map Prod.fst = pairs.map Prod.fst)
    (hp : P (ofPairs delims pairs)) : P (ofPairs delims entries) := by
  have hrun : (ofPairs delims pairs).mapValues nextOf (entries.map Prod.snd) = (.ok (ofPairs delims entries), []) := by
    rw [mapValues_ofPairs]
    simp only [Functor.map, ExceptT.map, ExceptT.mk, bind, StateT.bind, traverseValues_nextOf hkeys]
    rfl
  exact h hp hrun

end IndexedMap

/-! ## Maps in forms -/

open IndexedMap

/-- Whether all maps in a form are kept as maps with the given property. -/
def Form.MapsKept (P : IndexedMap → Prop) (f : Form) : Prop :=
  ∀ delims pairs, .map delims pairs ∈ f.parts → P (ofPairs delims pairs)

variable {P : IndexedMap → Prop}

/-- There are no maps in a form that is no collection. -/
theorem mapsKept_of_not_isCollection {f : Form} (h : f.isCollection = false) : f.MapsKept P := by
  intro delims pairs hm
  cases f with
  | seq | map => cases h
  | _ => cases List.mem_singleton.mp hm

/-- The maps in a sequence are those in its members. -/
theorem mapsKept_seq {kind : SeqKind} {delims : Delimiters} {members : List Form} :
    (Form.seq kind delims members).MapsKept P ↔ ∀ m ∈ members, m.MapsKept P := by
  simp only [Form.MapsKept, Form.parts, List.mem_cons, reduceCtorEq, false_or, mem_partsOfMembers]
  constructor
  · exact fun h m hm delims pairs hp => h delims pairs ⟨m, hm, hp⟩
  · rintro h delims pairs ⟨m, hm, hp⟩
    exact h m hm delims pairs hp

/-- The maps in a map are that map and those in its values. -/
theorem mapsKept_map {delims : Delimiters} {pairs : List (Key × Form)} :
    (Form.map delims pairs).MapsKept P ↔ P (ofPairs delims pairs) ∧ ∀ p ∈ pairs, p.2.MapsKept P := by
  simp only [Form.MapsKept, Form.parts, List.mem_cons, Form.map.injEq, mem_partsOfPairs, eq_toForm_iff, Form.asKey?,
    reduceCtorEq, false_or]
  constructor
  · exact fun h => ⟨h delims pairs (.inl ⟨rfl, rfl⟩), fun p hp d ps hm => h d ps (.inr ⟨p, hp, hm⟩)⟩
  · rintro ⟨hmap, hvalues⟩ d ps (⟨rfl, rfl⟩ | ⟨p, hp, hm⟩)
    · exact hmap
    · exact hvalues p hp d ps hm

/-! ## Maps that are read -/

/-- The maps that the reader makes, member by member, of the tokens after an opening delimiter. -/
def IndexedMap.Loaded (limit : Nat) (m : IndexedMap) : Prop :=
  ∃ opening depth ts after, IndexedMap.readMembers limit depth (IndexedMap.start opening {}) ts = .ok (m, after)

/-- The keys and values that are read after an opening delimiter are kept as a map that the reader makes. -/
theorem loaded_of_readPairs {limit depth : Nat} {ts : List Token} {pairs : List (Key × Form)} {closing : Token}
    {after : Fewer ts} (h : readPairs limit depth ts = .ok (pairs, closing, after)) (opening : Token) :
    Loaded limit (ofPairs ⟨some opening, some closing⟩ pairs) := by
  refine ⟨opening, depth, ts, after, ?_⟩
  have hread := readMembers_ofPairs limit depth ⟨some opening, none⟩ [] ts
  rw [h] at hread
  exact hread

/-- An atom is no collection. -/
theorem isCollection_of_readAtom {t : Token} {f : Form} (h : readAtom t = .ok f) : f.isCollection = false := by
  unfold readAtom at h
  repeat' split at h
  all_goals cases h
  all_goals rfl

mutual

/-- The maps in a form that is read are made by the reader. -/
theorem mapsKept_of_readForm {limit depth : Nat} {ts : List Token} {f : Form} {after : Fewer ts}
    (h : readForm limit depth ts = .ok (f, after)) : f.MapsKept (Loaded limit) := by
  rw [readForm] at h
  split at h
  · cases h
  · next t rest hs =>
    have hlt : rest.length < ts.length := by
      have := length_skipComments_le ts
      simp only [hs, List.length_cons] at this
      omega
    split at h
    · next kind ho =>
      split at h
      · cases h
      · split at h
        · cases h
        · next members closing after' hms =>
          cases h
          exact mapsKept_seq.mpr (mapsKept_of_readMembers hms)
    · split at h
      · cases h
      · split at h
        · cases h
        · next pairs closing after' hps =>
          cases h
          exact mapsKept_map.mpr ⟨loaded_of_readPairs hps t, mapsKept_of_readPairs hps⟩
    · split at h
      · cases h
      · split at h
        · cases h
        · next f' ha =>
          cases h
          exact mapsKept_of_not_isCollection (isCollection_of_readAtom ha)
  termination_by (ts.length, 0)

/-- The maps in members that are read are made by the reader. -/
theorem mapsKept_of_readMembers {limit depth : Nat} {kind : SeqKind} {ts : List Token} {members : List Form}
    {closing : Token} {after : Fewer ts} (h : readMembers limit depth kind ts = .ok (members, closing, after)) :
    ∀ m ∈ members, m.MapsKept (Loaded limit) := by
  rw [readMembers] at h
  split at h
  · cases h
  · cases h
    simp
  · split at h
    · cases h
    · next member rest fewer hf =>
      split at h
      · cases h
      · next members' closing' after' hms =>
        cases h
        exact List.forall_mem_cons.mpr ⟨mapsKept_of_readForm hf, mapsKept_of_readMembers hms⟩
  termination_by (ts.length, 1)

/-- The maps in values that are read are made by the reader. -/
theorem mapsKept_of_readPairs {limit depth : Nat} {ts : List Token} {pairs : List (Key × Form)} {closing : Token}
    {after : Fewer ts} (h : readPairs limit depth ts = .ok (pairs, closing, after)) :
    ∀ p ∈ pairs, p.2.MapsKept (Loaded limit) := by
  rw [readPairs] at h
  split at h
  · cases h
  · cases h
    simp
  · split at h
    · cases h
    · next form rest fewer hf =>
      split at h
      · cases h
      · next key hk =>
        split at h
        · cases h
        · cases h
        · split at h
          · cases h
          · next value rest' fewer' hv =>
            split at h
            · cases h
            · next pairs' closing' after' hps =>
              cases h
              exact List.forall_mem_cons.mpr ⟨mapsKept_of_readForm hv, mapsKept_of_readPairs hps⟩
  termination_by (ts.length, 1)

end

/-- The maps in the form of a text are made by the reader. -/
theorem mapsKept_of_readText {limit : Nat} {source : String} {f : Form} (h : readText limit source = .ok f) :
    f.MapsKept (Loaded limit) := by
  unfold readText readTokens at h
  split at h
  · cases h
  · next hf =>
    split at h
    · cases h
      exact mapsKept_of_readForm hf
    · cases h

/-! ## Maps that are computed -/

/-- Whether functions keep a property of all maps from their arguments to their results. -/
def Host.MapsKept {σ : Type} (P : IndexedMap → Prop) (host : Host σ) : Prop :=
  ∀ b args w v, (∀ a ∈ args, Form.MapsKept P a) → (host.call b args w).1 = .ok v → v.MapsKept P

/-- Whether all maps that are bound have a property. -/
def Environment.MapsKept (P : IndexedMap → Prop) (env : Environment) : Prop := ∀ b ∈ env.bindings, b.2.MapsKept P

/-- Evaluation keeps a property of all maps that replacing values keeps. -/
theorem mapsKept_invariant (hP : StableUnderValues P) {σ : Type} {host : Host σ} (hhost : host.MapsKept P) (limit : Nat) :
    EvalInvariant host limit (fun bindings _ => ∀ b ∈ bindings, b.2.MapsKept P) (Form.MapsKept P) (Form.MapsKept P)
      fun _ => True where
  interrupted _ _ _ _ := trivial
  overflow _ := trivial
  symbol name _ env _ _ hs := Environment.settles_lookup hs name
  self _ hf _ _ := hf
  member _ _ _ hf := mapsKept_seq.mp hf
  mapped _ _ hf := (mapsKept_map.mp hf).2
  empty _ := id
  vector _ _ _ _ _ hvs := mapsKept_seq.mpr hvs
  map _ _ _ hf hkeys hes := mapsKept_map.mpr ⟨hP.of_keys hkeys (mapsKept_map.mp hf).1, hes⟩
  apply bindings world f args hs _ hargs := by
    refine ⟨hs, ?_⟩
    rcases host.apply_cases f args world with ⟨e, happly⟩ | ⟨b, -, -, happly⟩
    · rw [happly]
      trivial
    · rw [happly]
      cases hcall : (host.call b args world).1 with
      | error e => trivial
      | ok v => exact hhost b args world v hargs hcall

/-- What replacing values keeps of all maps is kept from the maps of a form, of the bindings and of functions to the maps of a
value. -/
theorem mapsKept_eval (hP : StableUnderValues P) {σ : Type} {host : Host σ} (hhost : host.MapsKept P) (settings : Settings)
    {f v : Form} (hf : f.MapsKept P) {machine : Machine σ} (henv : machine.env.MapsKept P)
    (h : (f.eval host settings machine).1 = .ok v) : v.MapsKept P := by
  obtain ⟨-, -, hout⟩ := (mapsKept_invariant hP hhost settings.maxDepth).eval hf machine henv
  rw [h] at hout
  exact hout

/-! ## All maps -/

/-- Every map of keys and values can be made, by adding them one after the other to the empty map. -/
theorem made_ofPairs (delims : Delimiters) (pairs : List (Key × Form)) : Made (ofPairs delims pairs) := by
  have hpairs : Made (ofPairs {} pairs) := by
    induction pairs using List.reverseRecOn with
    | nil => exact .new
    | append_singleton pairs p ih =>
      exact .assoc ih (assoc_ofPairs_toForm {} pairs p.1 p.2)
  rcases delims with ⟨_ | opening, _ | closing⟩
  · exact hpairs
  · exact hpairs.finish closing
  · exact hpairs.start opening
  · exact (hpairs.start opening).finish closing

/-- Every map that the operations of maps make is coherent, and what it answers can be told from its members. The maps in forms
that are read are those that the reader makes member by member. Evaluation makes maps by replacing values only: it replaces the
values of kept maps, and whatever that keeps of all maps it keeps itself. Any map that a form can hold is made, and it answers and
grows as the form does. -/
theorem kept_maps_coherent :
    (∀ m, Made m → m.Coherent ∧
        (∀ key, m.get? key = key.asKey?.bind fun k => lastValue? m.members k.index) ∧
        (m.entries = (keyTexts m.members).eraseDups.filterMap fun text =>
          (firstKey? m.members text).bind fun key => (lastValue? m.members text).map fun value => (key, value)) ∧
        m.size = (keyTexts m.members).eraseDups.length) ∧
      (∀ limit source f, readText limit source = .ok f → f.MapsKept (Loaded limit)) ∧
      (∀ (σ : Type) (host : Host σ) settings delims pairs,
        (ofPairs delims pairs).mapValues (Form.eval host settings) = ofPairs delims <$> evalValues host settings pairs) ∧
      (∀ P, StableUnderValues P → ∀ (σ : Type) (host : Host σ), host.MapsKept P →
        ∀ settings (machine : Machine σ) (f v : Form), machine.env.MapsKept P → f.MapsKept P →
          (f.eval host settings machine).1 = .ok v → v.MapsKept P) ∧
      (∀ delims pairs, Made (ofPairs delims pairs) ∧
        (∀ key, (ofPairs delims pairs).get? key = Form.lookup? pairs key) ∧
        (∀ key value, (ofPairs delims pairs).assoc key value = (Form.addPair pairs key value).map (ofPairs delims)) ∧
        (ofPairs delims pairs).entries = (Entries.entries pairs).map (Prod.map Key.toForm id)) ∧
      ∀ members, ofMembers members = (pairUp members).map (ofPairs {}) := by
  refine ⟨fun m hm => ?_, fun limit source f => mapsKept_of_readText, fun σ host settings delims pairs => ?_,
    fun P hP σ host hhost settings machine f v henv hf => mapsKept_eval hP hhost settings hf henv, fun delims pairs => ?_,
    ofMembers_eq⟩
  · have hc : m.Coherent := hm.coherent
    exact ⟨hc, hc.get?_eq, hc.entries_eq, hc.size_eq⟩
  · rw [mapValues_ofPairs, evalValues_eq_traverseValues]
  · refine ⟨made_ofPairs delims pairs, get?_ofPairs delims pairs, assoc_ofPairs delims pairs, ?_⟩
    rw [entries, ofPairs, indexOf, List.map_map]
    rfl

/-- A key that comes again keeps its place and the form that came first, and has the value that came last. -/
theorem kept_map_overwritten :
    let a : Option Token → Form := .keyword ⟨.shared, "a"⟩
    let members := [a (some ⟨":a", 1⟩), .bool true, .str "b" none, .bool true, a none, .bool false]
    ∃ m, ofMembers members = .ok m ∧ m.get? (a none) = some (.bool false) ∧
      m.entries = [(a (some ⟨":a", 1⟩), .bool false), (.str "b" none, .bool true)] ∧ m.size = 2 := by
  intro a members
  have hm : ofMembers members = .ok (ofPairs {} _) := ofMembers_eq members
  obtain ⟨-, hget, hentries, hsize⟩ := kept_maps_coherent.1 _ (.ofMembers hm)
  exact ⟨_, hm, (hget _).trans rfl, hentries.trans rfl, hsize.trans rfl⟩

end TinyLisp

import TinyLisp.Eval.Basic
import TinyLisp.Form.Entries
import TinyLisp.Form.Reader

/-!
# Maps that are kept with an index

A map can be kept as the alternating list of its keys and values together with an index. For the text that a key is found by, the
index holds the key form that was added first and the value that was added last. List and index are changed by code of their own,
and a map that grows member by member has a key without a value after every other step.

`IndexedMap.ofPairs` is the map that is kept for keys and values. Every operation on kept maps does to them what the operation on
keys and values does: adding a pair (`assoc_ofPairs`), building a map of members (`ofMembers_eq`), looking a key up
(`get?_ofPairs`), replacing values (`mapValues_ofPairs`), and reading member by member (`readMembers_ofPairs`).
-/

namespace TinyLisp

/-- For every text that a key is found by: the key form and the value, in the order of first addition. -/
abbrev Index : Type := List (String × Form × Form)

/-- The index with a value bound under a key. Where the text of the key is known, the first key form and its place stay. -/
def Index.bind (text : String) (key value : Form) : Index → Index
  | [] => [(text, key, value)]
  | (text', key', value') :: rest =>
    if text' = text then (text', key', value) :: rest else (text', key', value') :: bind text key value rest

/-- A map as it is kept: its members as they were added, its index and its delimiters. -/
structure IndexedMap where
  members : List Form := []
  index : Index := []
  delims : Delimiters := {}

namespace IndexedMap

/-! ## Operations -/

/-- The key that waits for its value, if the number of members is odd. -/
def danglingKey? (m : IndexedMap) : Option Form := if m.members.length % 2 = 1 then m.members.getLast? else none

/-- The map with one more member: a key, or the value of the key before it, which goes to the index. -/
def append (m : IndexedMap) (f : Form) : Except ReadError IndexedMap :=
  match m.danglingKey? with
  | none => f.toKey.map fun _ => { m with members := m.members ++ [f] }
  | some key =>
    key.toKey.map fun k => { m with members := m.members ++ [f], index := Index.bind k.index key f m.index }

/-- The map, unless a key waits for its value. -/
def complete (m : IndexedMap) : Except ReadError IndexedMap :=
  match m.danglingKey? with
  | none => .ok m
  | some key => .error (.unpairedKey (key.print .readable))

/-- The map with a value bound to a key. -/
def assoc (m : IndexedMap) (key value : Form) : Except ReadError IndexedMap := do
  let m ← m.complete
  let m ← m.append key
  m.append value

/-- The map of alternating keys and values, added one by one. -/
def ofMembers (members : List Form) : Except ReadError IndexedMap := do
  let m ← members.foldlM append {}
  m.complete

/-- The map with its opening delimiter. -/
def start (opening : Token) (m : IndexedMap) : IndexedMap := { m with delims := { m.delims with opening := some opening } }

/-- The map with its closing delimiter. -/
def finish (closing : Token) (m : IndexedMap) : IndexedMap := { m with delims := { m.delims with closing := some closing } }

/-- The value of a key. A form that is no key has none. -/
def get? (m : IndexedMap) (key : Form) : Option Form := key.asKey?.bind fun k => (m.index.lookup k.index).map Prod.snd

/-- The keys with their values. -/
def entries (m : IndexedMap) : List (Form × Form) := m.index.map Prod.snd

/-- The number of keys. -/
def size (m : IndexedMap) : Nat := m.index.length

section

variable {M : Type → Type} [Monad M]

/-- Goes through members two by two and replaces the values, while a new list of members and a new index grow. -/
def mapChunks (act : Form → M Form) (members : List Form) (index : Index) : List Form → M (List Form × Index)
  | [] => pure (members, index)
  | [key] => pure (members ++ [key], index)
  | key :: value :: rest => do
    let value ← act value
    let index :=
      match key.asKey? with
      | some k => Index.bind k.index key value index
      | none => index
    mapChunks act (members ++ [key, value]) index rest

/-- The map with every value replaced, in the order of the members. -/
def mapValues (act : Form → M Form) (m : IndexedMap) : M IndexedMap := do
  let (members, index) ← mapChunks act [] [] m.members
  pure { m with members, index }

end

/-- Reads the members of an open map one by one into the map, up to the delimiter that closes it. -/
def readMembers (limit depth : Nat) (m : IndexedMap) (ts : List Token) : Except ReadError (IndexedMap × Fewer ts) :=
  match nextInside .map ts with
  | .error e => .error e
  | .ok (some (closing, after)) => m.complete.map fun m => (m.finish closing, after)
  | .ok none =>
    match readForm limit depth ts with
    | .error e => .error e
    | .ok (member, ⟨rest, fewer⟩) =>
      match m.append member with
      | .error e => .error e
      | .ok m =>
        match readMembers limit depth m rest with
        | .error e => .error e
        | .ok (m, after) => .ok (m, ⟨after, Nat.lt_trans after.2 fewer⟩)
  termination_by ts.length

/-! ## The map that is kept for keys and values -/

/-- The index of keys and values. -/
def indexOf (pairs : List (Key × Form)) : Index := (Entries.entries pairs).map fun e => (e.1.index, e.1.toForm, e.2)

/-- The map that is kept for keys and values. -/
def ofPairs (delims : Delimiters) (pairs : List (Key × Form)) : IndexedMap := ⟨alternate pairs, indexOf pairs, delims⟩

/-- The map that is kept for keys and values and a key that waits for its value. -/
def half (delims : Delimiters) (pairs : List (Key × Form)) (k : Key) : IndexedMap :=
  ⟨alternate pairs ++ [k.toForm], indexOf pairs, delims⟩

/-- Two members stand for every key and value. -/
theorem length_alternate (pairs : List (Key × Form)) : (alternate pairs).length = 2 * pairs.length := by
  induction pairs with
  | nil => rfl
  | cons p rest ih =>
    rw [alternate_cons, List.length_cons, List.length_cons, ih, List.length_cons]
    omega

/-- A key and a value added at the end are the last two members. -/
theorem alternate_append_singleton (pairs : List (Key × Form)) (k : Key) (v : Form) :
    alternate (pairs ++ [(k, v)]) = alternate pairs ++ [k.toForm, v] := by
  simp [alternate]

/-- Binding a value in the index of entries is putting it among the entries. -/
theorem bind_map (k : Key) (v : Form) (es : List (Key × Form)) :
    Index.bind k.index k.toForm v (es.map fun e => (e.1.index, e.1.toForm, e.2)) =
      (Entries.put k v es).map fun e => (e.1.index, e.1.toForm, e.2) := by
  induction es with
  | nil => rfl
  | cons e es ih =>
    rw [List.map_cons, Index.bind, Entries.put]
    split
    · rfl
    · rw [List.map_cons, ih]

/-- A key and a value added at the end are bound in the index. -/
theorem indexOf_append_singleton (pairs : List (Key × Form)) (k : Key) (v : Form) :
    indexOf (pairs ++ [(k, v)]) = Index.bind k.index k.toForm v (indexOf pairs) := by
  rw [indexOf, Entries.entries_append_singleton, indexOf, bind_map]

@[simp] theorem danglingKey?_ofPairs (delims : Delimiters) (pairs : List (Key × Form)) :
    (ofPairs delims pairs).danglingKey? = none := by
  have heven : (alternate pairs).length % 2 ≠ 1 := by
    rw [length_alternate]
    omega
  exact if_neg heven

@[simp] theorem danglingKey?_half (delims : Delimiters) (pairs : List (Key × Form)) (k : Key) :
    (half delims pairs k).danglingKey? = some k.toForm := by
  have hodd : (alternate pairs ++ [k.toForm]).length % 2 = 1 := by
    rw [List.length_append, length_alternate, List.length_singleton]
    omega
  rw [danglingKey?, half, if_pos hodd, List.getLast?_append, List.getLast?_singleton, Option.some_or]

@[simp] theorem toKey_toForm (k : Key) : k.toForm.toKey = .ok k := by rw [Form.toKey, Form.asKey?_toForm]

/-- Keys and values are found in the list that alternates between them. -/
theorem pairUp_alternate (pairs : List (Key × Form)) : pairUp (alternate pairs) = .ok pairs := by
  induction pairs with
  | nil => rfl
  | cons p rest ih =>
    rw [alternate_cons, pairUp, toKey_toForm, ih]
    rfl

/-! ## Growing -/

/-- Where every key has its value, only a key can be added, and it waits for its value. -/
theorem append_ofPairs (delims : Delimiters) (pairs : List (Key × Form)) (f : Form) :
    (ofPairs delims pairs).append f = f.toKey.map (half delims pairs) := by
  rw [append, danglingKey?_ofPairs]
  cases hf : f.toKey with
  | error e => rfl
  | ok k =>
    obtain rfl := toForm_of_toKey hf
    rfl

/-- Where a key waits for its value, any form can be added. -/
theorem append_half (delims : Delimiters) (pairs : List (Key × Form)) (k : Key) (v : Form) :
    (half delims pairs k).append v = .ok (ofPairs delims (pairs ++ [(k, v)])) := by
  rw [append, danglingKey?_half]
  simp only [toKey_toForm, Except.map, half, ofPairs, alternate_append_singleton, indexOf_append_singleton,
    List.append_assoc, List.cons_append, List.nil_append]

theorem complete_ofPairs (delims : Delimiters) (pairs : List (Key × Form)) :
    (ofPairs delims pairs).complete = .ok (ofPairs delims pairs) := by
  rw [complete, danglingKey?_ofPairs]

theorem complete_half (delims : Delimiters) (pairs : List (Key × Form)) (k : Key) :
    (half delims pairs k).complete = .error k.unpaired := by
  rw [complete, danglingKey?_half]
  rfl

/-- Binding a value to a key adds the two to the keys and values. -/
theorem assoc_ofPairs (delims : Delimiters) (pairs : List (Key × Form)) (key value : Form) :
    (ofPairs delims pairs).assoc key value = (Form.addPair pairs key value).map (ofPairs delims) := by
  rw [assoc, complete_ofPairs, Form.addPair]
  simp only [bind, Except.bind, append_ofPairs]
  cases key.toKey with
  | error e => rfl
  | ok k => exact append_half delims pairs k value

/-- Binding a value to a key always works. -/
theorem assoc_ofPairs_toForm (delims : Delimiters) (pairs : List (Key × Form)) (k : Key) (v : Form) :
    (ofPairs delims pairs).assoc k.toForm v = .ok (ofPairs delims (pairs ++ [(k, v)])) := by
  rw [assoc_ofPairs, Form.addPair, toKey_toForm]
  rfl

/-- The map of members, from a map on, is the map of their keys and values added to it. -/
theorem foldlM_append_complete (delims : Delimiters) (pairs : List (Key × Form)) (members : List Form) :
    (do let m ← members.foldlM append (ofPairs delims pairs); m.complete) =
      (pairUp members).map fun more => ofPairs delims (pairs ++ more) := by
  induction members using pairUp.induct generalizing pairs with
  | case1 => simpa [pairUp, Except.map] using complete_ofPairs delims pairs
  | case2 k =>
    rw [pairUp, List.foldlM_cons, append_ofPairs]
    cases k.toKey with
    | error e => rfl
    | ok k => exact complete_half delims pairs k
  | case3 k v rest ih =>
    rw [pairUp, List.foldlM_cons, append_ofPairs]
    cases k.toKey with
    | error e => rfl
    | ok k =>
      have hgrow := ih (pairs ++ [(k, v)])
      simp only [Except.map, Except.bind, bind, List.foldlM_cons, append_half] at hgrow ⊢
      rw [hgrow]
      cases pairUp rest with
      | error e => rfl
      | ok more => simp

/-- The map of members is the map of their keys and values, with the same complaint where they are none. -/
theorem ofMembers_eq (members : List Form) : ofMembers members = (pairUp members).map (ofPairs {}) :=
  foldlM_append_complete {} [] members

/-! ## Looking up -/

/-- The index finds what the entries bind. -/
theorem lookup_map (text : String) (es : List (Key × Form)) (h : (Entries.indices es).Nodup) :
    ((es.map fun e => (e.1.index, e.1.toForm, e.2)).lookup text).map Prod.snd = Entries.get? es text := by
  induction es with
  | nil => rfl
  | cons e es ih =>
    obtain ⟨hnot, hrest⟩ := List.nodup_cons.mp h
    rw [List.map_cons, List.lookup_cons, Entries.get?]
    by_cases he : e.1.index = text
    · have hnone : Entries.get? es text = none := Entries.get?_eq_none_iff.mpr (he ▸ hnot)
      simp [he, hnone]
    · have hne : (text == e.1.index) = false := beq_false_of_ne (Ne.symm he)
      simp [hne, he, ih hrest]

/-- The index of keys and values finds what they bind. -/
theorem lookup_indexOf (pairs : List (Key × Form)) (text : String) :
    ((indexOf pairs).lookup text).map Prod.snd = Entries.get? pairs text :=
  (lookup_map text _ (Entries.nodup_entries pairs)).trans (Entries.get?_entries pairs text)

/-- The map of keys and values finds what they bind. -/
theorem get?_ofPairs (delims : Delimiters) (pairs : List (Key × Form)) (key : Form) :
    (ofPairs delims pairs).get? key = Form.lookup? pairs key := by
  unfold get? Form.lookup?
  cases key.asKey? with
  | none => rfl
  | some k => exact lookup_indexOf pairs k.index

/-! ## Replacing values -/

section

variable {M : Type → Type} [Monad M] [LawfulMonad M]

/-- Going through keys and values two by two, after others, replaces their values after those of the others. -/
theorem mapChunks_alternate (act : Form → M Form) (before pairs : List (Key × Form)) :
    mapChunks act (alternate before) (indexOf before) (alternate pairs) =
      (fun after => (alternate (before ++ after), indexOf (before ++ after))) <$> Form.traverseValues act pairs := by
  induction pairs generalizing before with
  | nil => simp [alternate, mapChunks, Form.traverseValues]
  | cons p rest ih =>
    obtain ⟨k, v⟩ := p
    rw [alternate_cons, mapChunks, Form.traverseValues, map_bind]
    refine bind_congr fun value => ?_
    have hgrow := ih (before ++ [(k, value)])
    rw [alternate_append_singleton, indexOf_append_singleton] at hgrow
    simp [hgrow]

/-- Replacing the values of a kept map is replacing them among the keys and values. -/
theorem mapValues_ofPairs (act : Form → M Form) (delims : Delimiters) (pairs : List (Key × Form)) :
    (ofPairs delims pairs).mapValues act = ofPairs delims <$> Form.traverseValues act pairs := by
  have hchunks : mapChunks act [] [] (alternate pairs) = _ := mapChunks_alternate act [] pairs
  unfold mapValues
  simp only [ofPairs, hchunks, List.nil_append, map_eq_pure_bind, bind_assoc, pure_bind]

end

/-- The values of a map are evaluated one by one, keys stay. -/
theorem evalValues_eq_traverseValues {σ : Type} (host : Host σ) (settings : Settings) (pairs : List (Key × Form)) :
    evalValues host settings pairs = Form.traverseValues (Form.eval host settings) pairs := by
  induction pairs with
  | nil => rfl
  | cons p rest ih => rw [evalValues, Form.traverseValues, ih]

/-! ## Reading -/

/-- Reading member by member into a map adds the keys and values that are read. -/
theorem readMembers_ofPairs (limit depth : Nat) (delims : Delimiters) (before : List (Key × Form)) (ts : List Token) :
    readMembers limit depth (ofPairs delims before) ts =
      (readPairs limit depth ts).map fun r =>
        (ofPairs { delims with closing := some r.2.1 } (before ++ r.1), r.2.2) := by
  rw [readMembers, readPairs]
  cases hn : nextInside .map ts with
  | error e => rfl
  | ok next =>
    rcases next with _ | ⟨closing, after⟩
    · rcases hf : readForm limit depth ts with e | ⟨form, rest, fewer⟩
      · rfl
      · simp only [append_ofPairs]
        cases hk : form.toKey with
        | error e => rfl
        | ok key =>
          -- Now a key waits for its value, and the loop goes round once more.
          simp only [Except.map]
          rw [readMembers]
          cases hn' : nextInside .map rest with
          | error e => rfl
          | ok next =>
            rcases next with _ | ⟨closing, after⟩
            · rcases readForm limit depth rest with e | ⟨value, rest', fewer'⟩
              · rfl
              · simp only [append_half]
                rw [readMembers_ofPairs limit depth delims (before ++ [(key, value)]) rest']
                cases readPairs limit depth rest' <;> simp [Except.map]
            · simp only [complete_half]
              rfl
    · simp only [complete_ofPairs, Except.map, List.append_nil]
      rfl
  termination_by ts.length

end IndexedMap

end TinyLisp

import TinyLisp.Form.Printer

/-!
# Building and searching collections

Sequences grow by one member, maps by a key and a value. A form offered as a key is checked here: `toKey` refuses what is
neither a string nor a keyword. A map may be built of an alternating list of keys and values, and `alternate_of_pairUp` says
that nothing of the list is lost. `traverse` replaces the members of a sequence, or the values of a map, from first to last.
-/

namespace TinyLisp

/-- The key that a form is, or the complaint that it is none. -/
def Form.toKey (f : Form) : Except ReadError Key :=
  match f.asKey? with
  | some k => .ok k
  | none => .error (.invalidKey (f.print .readable))

/-- The complaint that a key has no value. -/
def Key.unpaired (k : Key) : ReadError := .unpairedKey (k.toForm.print .readable)

/-- The keys and values of an alternating list, or what is wrong with it: the first form in the place of a key that is none,
or a key at the end. -/
def pairUp : List Form → Except ReadError (List (Key × Form))
  | [] => .ok []
  | [k] => k.toKey.bind fun k => .error k.unpaired
  | k :: v :: rest => k.toKey.bind fun k => (pairUp rest).map ((k, v) :: ·)

/-- A form is the form of the key that it is. -/
theorem toForm_of_toKey {f : Form} {k : Key} (h : f.toKey = .ok k) : k.toForm = f := by
  unfold Form.toKey at h
  split at h <;> cases h
  exact Form.toForm_of_asKey? ‹_›

/-- The list that keys and values were taken from alternates between them. -/
theorem alternate_of_pairUp {ms : List Form} {ps : List (Key × Form)} (h : pairUp ms = .ok ps) : alternate ps = ms := by
  induction ms using pairUp.induct generalizing ps with
  | case1 => cases h; rfl
  | case2 k =>
    simp only [pairUp, Except.bind] at h
    split at h <;> cases h
  | case3 k v rest ih =>
    simp only [pairUp, Except.bind] at h
    split at h
    · cases h
    · next key hk =>
      cases hr : pairUp rest with
      | error e => simp [hr, Except.map] at h
      | ok qs =>
        simp only [hr, Except.map, Except.ok.injEq] at h
        subst h
        simpa [alternate, toForm_of_toKey hk] using ih hr

namespace Form

/-- The map of an alternating list of keys and values. -/
def ofAlternating (members : List Form) : Except ReadError Form := (pairUp members).map (.map {})

/-- A list of keys and values with a value added under a key. -/
def addPair (pairs : List (Key × Form)) (key value : Form) : Except ReadError (List (Key × Form)) :=
  key.toKey.map fun k => pairs ++ [(k, value)]

/-- The value that a list of keys and values binds to a form; a form that is no key is bound to nothing. -/
def lookup? (pairs : List (Key × Form)) (key : Form) : Option Form :=
  key.asKey?.bind fun k => Entries.get? pairs k.index

/-- The map with a value added under a key; no other form has keys. -/
def assoc (key value : Form) : Form → Except ReadError Form
  | .map delims pairs => (addPair pairs key value).map (.map delims)
  | f => .ok f

/-- The sequence with a form added at its end; no other form has an end. -/
def append (f : Form) : Form → Form
  | .seq kind delims members => .seq kind delims (members ++ [f])
  | g => g

variable {m : Type → Type} [Monad m]

/-- The keys and values with every value replaced, in the order of their addition. -/
def traverseValues (act : Form → m Form) : List (Key × Form) → m (List (Key × Form))
  | [] => pure []
  | (k, v) :: rest => do
    let v ← act v
    let rest ← traverseValues act rest
    pure ((k, v) :: rest)

/-- The collection with every member of a sequence, or every value of a map, replaced from first to last; keys and
delimiters stay. Other forms stay as they are. -/
def traverse (act : Form → m Form) : Form → m Form
  | .seq kind delims members => do
    let members ← members.mapM act
    pure (.seq kind delims members)
  | .map delims pairs => do
    let pairs ← traverseValues act pairs
    pure (.map delims pairs)
  | f => pure f

end Form

end TinyLisp

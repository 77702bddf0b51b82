import TinyLisp.Form.Basic

/-!
# What a form is made of

A form holds other forms: the members of a sequence, the keys and values of a map. `Form.induction` is the induction over that
structure. `Form.parts` lists a form and all that it holds, values that were replaced included, and `Form.nesting` counts how
deeply its collections are nested.
-/

namespace TinyLisp

/-- What holds of a collection whenever it holds of its members or values holds of every form. -/
@[elab_as_elim, induction_eliminator]
theorem Form.induction {P : Form → Prop} (int : ∀ value token, P (.int value token))
    (symbol : ∀ name token, P (.symbol name token)) (str : ∀ value token, P (.str value token))
    (keyword : ∀ keyword token, P (.keyword keyword token)) (bool : ∀ value, P (.bool value))
    (seq : ∀ kind delims members, (∀ m ∈ members, P m) → P (.seq kind delims members))
    (map : ∀ delims pairs, (∀ p ∈ pairs, P p.2) → P (.map delims pairs)) (builtin : ∀ function, P (.builtin function)) :
    ∀ f, P f
  | .int value token => int value token
  | .symbol name token => symbol name token
  | .str value token => str value token
  | .keyword k token => keyword k token
  | .bool value => bool value
  | .seq kind delims members => seq kind delims members fun m _ => induction int symbol str keyword bool seq map builtin m
  | .map delims pairs => map delims pairs fun p _ => induction int symbol str keyword bool seq map builtin p.2
  | .builtin function => builtin function
  termination_by f => f
  decreasing_by
    · have := List.sizeOf_lt_of_mem ‹m ∈ members›
      simp only [Form.seq.sizeOf_spec]
      omega
    · have := List.sizeOf_lt_of_mem ‹p ∈ pairs›
      obtain ⟨k, v⟩ := p
      simp only [Form.map.sizeOf_spec, Prod.mk.sizeOf_spec] at this ⊢
      omega

/-! ## Parts -/

mutual

/-- A form and all that it holds, at any depth. -/
def Form.parts : Form → List Form
  | .seq kind delims members => .seq kind delims members :: partsOfMembers members
  | .map delims pairs => .map delims pairs :: partsOfPairs pairs
  | f => [f]

/-- The parts of the members of a sequence. -/
def partsOfMembers : List Form → List Form
  | [] => []
  | m :: ms => m.parts ++ partsOfMembers ms

/-- The keys of a map and the parts of its values. -/
def partsOfPairs : List (Key × Form) → List Form
  | [] => []
  | (k, v) :: rest => k.toForm :: (v.parts ++ partsOfPairs rest)

end

/-- A form is a part of itself. -/
theorem mem_parts_self (f : Form) : f ∈ f.parts := by cases f <;> simp [Form.parts]

/-- A part of the members is a part of one of them. -/
theorem mem_partsOfMembers {f : Form} {ms : List Form} : f ∈ partsOfMembers ms ↔ ∃ m ∈ ms, f ∈ m.parts := by
  induction ms <;> simp_all [partsOfMembers]

/-- A part of the keys and values is a key or a part of a value. -/
theorem mem_partsOfPairs {f : Form} {ps : List (Key × Form)} :
    f ∈ partsOfPairs ps ↔ ∃ p ∈ ps, f = p.1.toForm ∨ f ∈ p.2.parts := by
  induction ps with
  | nil => simp [partsOfPairs]
  | cons p rest ih => simp [partsOfPairs, ih, or_assoc]

/-- A form is that of a key exactly when it is the key. -/
theorem eq_toForm_iff {f : Form} {k : Key} : f = k.toForm ↔ f.asKey? = some k := by
  constructor
  · rintro rfl
    exact Form.asKey?_toForm k
  · exact fun h => (Form.toForm_of_asKey? h).symm

/-! ## Nesting -/

mutual

/-- How deeply collections are nested in a form: not at all in an atom, and one deeper in a collection than in what it
holds. -/
def Form.nesting : Form → Nat
  | .seq _ _ members => nestingOfMembers members + 1
  | .map _ pairs => nestingOfValues pairs + 1
  | _ => 0

/-- The deepest nesting of the members of a sequence. -/
def nestingOfMembers : List Form → Nat
  | [] => 0
  | m :: ms => max m.nesting (nestingOfMembers ms)

/-- The deepest nesting of the values of a map. -/
def nestingOfValues : List (Key × Form) → Nat
  | [] => 0
  | (_, v) :: rest => max v.nesting (nestingOfValues rest)

end

/-- The members are nested no deeper than each of them. -/
theorem nestingOfMembers_le_iff {ms : List Form} {n : Nat} : nestingOfMembers ms ≤ n ↔ ∀ m ∈ ms, m.nesting ≤ n := by
  induction ms with
  | nil => simp [nestingOfMembers]
  | cons m ms ih => rw [nestingOfMembers, Nat.max_le, ih, List.forall_mem_cons]

/-- The values are nested no deeper than each of them. -/
theorem nestingOfValues_le_iff {ps : List (Key × Form)} {n : Nat} :
    nestingOfValues ps ≤ n ↔ ∀ p ∈ ps, p.2.nesting ≤ n := by
  induction ps with
  | nil => simp [nestingOfValues]
  | cons p ps ih => rw [nestingOfValues, Nat.max_le, ih, List.forall_mem_cons]

/-- A member is nested no deeper than the deepest one. -/
theorem nesting_le_of_mem_members {ms : List Form} {m : Form} (h : m ∈ ms) : m.nesting ≤ nestingOfMembers ms :=
  nestingOfMembers_le_iff.mp (Nat.le_refl _) m h

/-- A value is nested no deeper than the deepest one. -/
theorem nesting_le_of_mem_pairs {ps : List (Key × Form)} {p : Key × Form} (h : p ∈ ps) :
    p.2.nesting ≤ nestingOfValues ps :=
  nestingOfValues_le_iff.mp (Nat.le_refl _) p h

/-- A change of members that keeps their nesting keeps the deepest one. -/
theorem nestingOfMembers_map {g : Form → Form} {ms : List Form} (h : ∀ m ∈ ms, (g m).nesting = m.nesting) :
    nestingOfMembers (ms.map g) = nestingOfMembers ms := by
  induction ms with
  | nil => rfl
  | cons m ms ih =>
    obtain ⟨hm, hms⟩ := List.forall_mem_cons.mp h
    rw [List.map_cons, nestingOfMembers, nestingOfMembers, hm, ih hms]

/-- A change of keys and values that keeps the nesting of the values keeps the deepest one. -/
theorem nestingOfValues_map {k : Key → Key} {g : Form → Form} {ps : List (Key × Form)}
    (h : ∀ p ∈ ps, (g p.2).nesting = p.2.nesting) : nestingOfValues (ps.map (Prod.map k g)) = nestingOfValues ps := by
  induction ps with
  | nil => rfl
  | cons p ps ih =>
    obtain ⟨hp, hps⟩ := List.forall_mem_cons.mp h
    rw [List.map_cons, Prod.map, nestingOfValues, nestingOfValues, hp, ih hps]

/-- A key is nested in nothing. -/
@[simp] theorem nesting_toForm (k : Key) : k.toForm.nesting = 0 := by cases k <;> rfl

end TinyLisp

import TinyLisp.Form.Printer
import TinyLisp.Proofs.Sameness

/-!
# Forms as they are written

`Form.normal` drops from a form what does not show when it is written: tokens, delimiters, and values that were replaced in a
map. The normal form is written as the form is (`spell_normal`), and forms with one normal form are the same
(`same_of_normal_eq`). `Form.bare` drops tokens and delimiters only.
-/

namespace TinyLisp

/-- The key without its token. -/
def Key.bare : Key → Key
  | .str value _ => .str value none
  | .keyword k _ => .keyword k none

@[simp] theorem Key.index_bare (k : Key) : k.bare.index = k.index := by cases k <;> rfl

@[simp] theorem Key.bare_bare (k : Key) : k.bare.bare = k.bare := by cases k <;> rfl

@[simp] theorem Key.spell_bare (mode : PrintMode) (k : Key) : k.bare.spell mode = k.spell mode := by cases k <;> rfl

mutual

/-- The form without tokens and with the entries of its maps only. -/
def Form.normal : Form → Form
  | .int value _ => .int value none
  | .symbol name _ => .symbol name none
  | .str value _ => .str value none
  | .keyword k _ => .keyword k none
  | .bool value => .bool value
  | .seq kind _ members => .seq kind {} (normalMembers members)
  | .map _ pairs => .map {} (Entries.entries (normalPairs pairs))
  | .builtin function => .builtin function

/-- The members without tokens. -/
def normalMembers : List Form → List Form
  | [] => []
  | m :: ms => m.normal :: normalMembers ms

/-- The keys and values without tokens. -/
def normalPairs : List (Key × Form) → List (Key × Form)
  | [] => []
  | (k, v) :: rest => (k.bare, v.normal) :: normalPairs rest

end

mutual

/-- The form without tokens and delimiters. -/
def Form.bare : Form → Form
  | .int value _ => .int value none
  | .symbol name _ => .symbol name none
  | .str value _ => .str value none
  | .keyword k _ => .keyword k none
  | .bool value => .bool value
  | .seq kind _ members => .seq kind {} (bareMembers members)
  | .map _ pairs => .map {} (barePairs pairs)
  | .builtin function => .builtin function

/-- The members without tokens and delimiters. -/
def bareMembers : List Form → List Form
  | [] => []
  | m :: ms => m.bare :: bareMembers ms

/-- The keys and values without tokens and delimiters, replaced values included. -/
def barePairs : List (Key × Form) → List (Key × Form)
  | [] => []
  | (k, v) :: rest => (k.bare, v.bare) :: barePairs rest

end

/-- Members are made normal one by one. -/
theorem normalMembers_eq_map (ms : List Form) : normalMembers ms = ms.map Form.normal := by
  induction ms <;> simp_all [normalMembers]

/-- Keys and values are made normal one by one. -/
theorem normalPairs_eq_map (ps : List (Key × Form)) : normalPairs ps = ps.map (Prod.map Key.bare Form.normal) := by
  induction ps <;> simp_all [normalPairs, Prod.map]

/-- The normal form of a map has its entries, made normal. -/
theorem normal_map (delims : Delimiters) (pairs : List (Key × Form)) :
    (Form.map delims pairs).normal = .map {} ((Entries.entries pairs).map (Prod.map Key.bare Form.normal)) := by
  rw [Form.normal, normalPairs_eq_map, Entries.entries_map Key.index_bare]

/-- Members lose their tokens one by one. -/
theorem bareMembers_eq_map (ms : List Form) : bareMembers ms = ms.map Form.bare := by
  induction ms <;> simp_all [bareMembers]

/-- Keys and values lose their tokens one by one. -/
theorem barePairs_eq_map (ps : List (Key × Form)) : barePairs ps = ps.map (Prod.map Key.bare Form.bare) := by
  induction ps <;> simp_all [barePairs, Prod.map]

/-- The form of a bare key is the normal form of that of the key. -/
theorem toForm_bare (k : Key) : k.bare.toForm = k.toForm.normal := by cases k <;> rfl

/-- What normal forms inherit, the parts of a normal form inherit from those of the form. -/
theorem forall_parts_normal {P : Form → Prop} (hP : ∀ g, P g → P g.normal) {f : Form} (h : ∀ g ∈ f.parts, P g) :
    ∀ g ∈ f.normal.parts, P g := by
  induction f with
  | int | symbol | str | keyword | bool | builtin => exact List.forall_mem_singleton.mpr (hP _ (h _ (mem_parts_self _)))
  | seq kind delims members ih =>
    obtain ⟨hself, -, hmembers⟩ := Form.forall_parts_iff.mp h
    refine Form.forall_parts_iff.mpr ⟨hP _ hself, nofun, ?_⟩
    rw [Form.normal, normalMembers_eq_map]
    exact List.forall_mem_map.mpr fun m hm => ih m hm (hmembers m hm)
  | map delims pairs ih =>
    obtain ⟨hself, hkeys, hvalues⟩ := Form.forall_parts_iff.mp h
    have hes : ∀ e ∈ Entries.entries pairs, P e.1.toForm ∧ ∀ g ∈ e.2.normal.parts, P g :=
      Entries.forall_entries (P := fun k => P k.toForm) (Q := fun v : Form => ∀ g ∈ v.normal.parts, P g) fun p hp =>
        ⟨hkeys p.1 (List.mem_map_of_mem hp), ih p hp (hvalues p.2 (List.mem_map_of_mem hp))⟩
    have hnormal := hP _ hself
    rw [normal_map] at hnormal ⊢
    refine Form.forall_parts_iff.mpr ⟨hnormal, ?_, ?_⟩
    · simp only [Form.keys, List.forall_mem_map]
      intro e he
      rw [Prod.map_fst, toForm_bare]
      exact hP _ (hes e he).1
    · simp only [Form.children, List.forall_mem_map]
      exact fun e he => (hes e he).2

/-- Tokens do not count for the normal form. -/
theorem normal_bare (f : Form) : f.bare.normal = f.normal := by
  induction f with
  | int | symbol | str | keyword | bool | builtin => rfl
  | seq kind delims members ih =>
    rw [Form.bare, Form.normal, Form.normal, normalMembers_eq_map, normalMembers_eq_map, bareMembers_eq_map, List.map_map]
    exact congrArg _ (List.map_congr_left ih)
  | map delims pairs ih =>
    have hpairs : (pairs.map (Prod.map Key.bare Form.bare)).map (Prod.map Key.bare Form.normal) =
        pairs.map (Prod.map Key.bare Form.normal) := by
      rw [List.map_map]
      exact List.map_congr_left fun p hp => Prod.ext (Key.bare_bare p.1) (ih p hp)
    rw [Form.bare, Form.normal, Form.normal, normalPairs_eq_map, normalPairs_eq_map, barePairs_eq_map, hpairs]

/-- A normal form is its own normal form. -/
theorem normal_normal (f : Form) : f.normal.normal = f.normal := by
  induction f with
  | int | symbol | str | keyword | bool | builtin => rfl
  | seq kind delims members ih =>
    simp only [Form.normal, normalMembers_eq_map, List.map_map, Form.seq.injEq, true_and]
    exact List.map_congr_left ih
  | map delims pairs ih =>
    have hes : ∀ e ∈ Entries.entries pairs, e.2.normal.normal = e.2.normal :=
      Entries.forall_values_entries (Q := fun v : Form => v.normal.normal = v.normal) ih
    rw [normal_map, normal_map, Entries.entries_map Key.index_bare, Entries.entries_entries, List.map_map]
    exact congrArg _ (List.map_congr_left fun e he => Prod.ext (Key.bare_bare e.1) (hes e he))

/-- Tokens do not count for the nesting. -/
theorem nesting_bare (f : Form) : f.bare.nesting = f.nesting := by
  induction f with
  | int | symbol | str | keyword | bool | builtin => rfl
  | seq kind delims members ih =>
    rw [Form.bare, Form.nesting, Form.nesting, bareMembers_eq_map]
    exact congrArg (· + 1) (nestingOfMembers_map ih)
  | map delims pairs ih =>
    rw [Form.bare, Form.nesting, Form.nesting, barePairs_eq_map]
    exact congrArg (· + 1) (nestingOfValues_map ih)

/-! ## What is written -/

/-- The spellings of the entries of a map are those of its values, where they are entries. -/
theorem entries_spellValues (mode : PrintMode) (pairs : List (Key × Form)) :
    Entries.entries (spellValues mode pairs) = (Entries.entries pairs).map (Prod.map id (Form.spell mode)) := by
  rw [spellValues_eq_map]
  exact Entries.entries_map (h := id) (fun _ => rfl) (Form.spell mode) pairs

/-- The normal form is written as the form is. -/
@[simp] theorem Form.spell_normal (mode : PrintMode) (f : Form) : f.normal.spell mode = f.spell mode := by
  induction f with
  | int | symbol | str | keyword | bool | builtin => rfl
  | seq kind delims members ih =>
    rw [Form.normal, Form.spell, Form.spell, spellMembers_eq_map, spellMembers_eq_map, normalMembers_eq_map, List.map_map]
    exact congrArg _ (List.map_congr_left ih)
  | map delims pairs ih =>
    have hes : ∀ e ∈ Entries.entries pairs, e.2.normal.spell mode = e.2.spell mode :=
      Entries.forall_values_entries (Q := fun v : Form => v.normal.spell mode = v.spell mode) ih
    rw [normal_map, Form.spell, Form.spell, entries_spellValues, entries_spellValues,
      Entries.entries_map Key.index_bare, Entries.entries_entries, List.map_map, List.map_map, List.map_map]
    exact congrArg _ (List.map_congr_left fun e he => by simp [spellEntry, hes e he])

/-! ## Sameness -/

/-- A form and its normal form have one label. -/
theorem label_normal (f : Form) : f.normal.label = f.label := by cases f <;> rfl

/-- In a place of the normal form is the normal form of what is there in the form. -/
theorem at?_normal (f : Form) (place : Place) : f.normal.at? place = (f.at? place).map Form.normal := by
  cases f with
  | int | symbol | str | keyword | bool | builtin => rfl
  | seq kind delims members =>
    cases place with
    | position i => rw [Form.normal, normalMembers_eq_map, Form.at?, Form.at?, List.getElem?_map]
    | key => rfl
  | map delims pairs =>
    cases place with
    | position => rfl
    | key index => rw [normal_map, Form.at?, Form.at?, Entries.get?_map Key.index_bare, Entries.get?_entries]

/-- The normal form looks like the form. -/
theorem view_normal (f : Form) : f.normal.view = f.view := by
  funext path
  induction path generalizing f with
  | nil => rw [Form.view, Form.view, label_normal]
  | cons place path ih =>
    rw [Form.view, Form.view, at?_normal, Option.bind_map]
    exact congrArg _ (funext ih)

/-- Forms with one normal form are the same. -/
theorem same_of_normal_eq {f g : Form} (h : f.normal = g.normal) : f.same g = true := by
  rw [Form.same_iff_view, ← view_normal f, h, view_normal]

/-- Forms with one normal form are printed alike. -/
theorem print_eq_of_normal_eq {f g : Form} (h : f.normal = g.normal) (mode : PrintMode) : f.print mode = g.print mode := by
  rw [Form.print, Form.print, ← Form.spell_normal, h, Form.spell_normal]

end TinyLisp

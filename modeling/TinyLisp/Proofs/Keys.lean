import TinyLisp.Form.Equality
import TinyLisp.Form.Map

/-!
# Which keys share a value

A map finds keys by their index, and a keyword is found by its name behind a sign. The sign sets it apart from the string of its
name, but a string may begin with the sign, too. Of the keys that the shared table allows, two that differ have one index
exactly when one is such a string and the other the keyword of what follows the sign in it (`index_eq_iff`). These disturb each
other, and no other keys do: a value added under one of them is found under the other, and every other key finds what it found
before (`assoc_disturbs_colliding_key_only`).
-/

namespace TinyLisp

/-- Whether a key is a string, or a keyword of the shared table. -/
def Key.IsShared : Key → Prop
  | .str _ _ => True
  | .keyword k _ => k.table = .shared

/-- Whether one key is a keyword and the other the string of its name behind the sign of keywords. -/
def Key.collides : Key → Key → Bool
  | .str value _, .keyword k _ => value == "\u029e" ++ k.name
  | .keyword k _, .str value _ => value == "\u029e" ++ k.name
  | _, _ => false

/-- Keys of the shared table have one index exactly when they are the same or collide. -/
theorem index_eq_iff {k l : Key} (hk : k.IsShared) (hl : l.IsShared) :
    k.index = l.index ↔ (k.toForm == l.toForm) = true ∨ k.collides l = true := by
  rcases k with ⟨a, _⟩ | ⟨⟨tk, a⟩, _⟩ <;> rcases l with ⟨b, _⟩ | ⟨⟨tl, b⟩, _⟩ <;>
    simp only [Key.index, Key.collides, Key.toForm, Form.beq_eq_same, Form.same, beq_iff_eq, Bool.false_eq_true, or_false,
      false_or]
  · exact eq_comm
  · -- Both names stand behind the same sign, and both tables are the shared one.
    obtain rfl : tk = .shared := hk
    obtain rfl : tl = .shared := hl
    have hname : "\u029e" ++ a = "\u029e" ++ b ↔ a = b := String.append_right_inj _
    rw [hname]
    simp

/-- A value can be added under every key, at the end of the keys and values of a map. -/
theorem assoc_toForm (k : Key) (v : Form) (delims : Delimiters) (pairs : List (Key × Form)) :
    Form.assoc k.toForm v (.map delims pairs) = .ok (.map delims (pairs ++ [(k, v)])) := by
  have hk : k.toForm.toKey = .ok k := by rw [Form.toKey, Form.asKey?_toForm]
  rw [Form.assoc, Form.addPair, hk]
  rfl

/-- After a value was added under a key, it is found under all keys of that index, and the others find what they found before. -/
theorem lookup?_append_singleton (pairs : List (Key × Form)) (k l : Key) (v : Form) :
    Form.lookup? (pairs ++ [(k, v)]) l.toForm = if k.index = l.index then some v else Form.lookup? pairs l.toForm := by
  unfold Form.lookup?
  rw [Form.asKey?_toForm, Option.bind_some, Option.bind_some, Entries.get?_append]
  by_cases h : k.index = l.index <;> simp [Entries.get?, h]

/-- A value added to a map under a key is found under it. Another key finds what it found before, unless the two collide: then
it finds the value that was added, whatever it found before. -/
theorem assoc_disturbs_colliding_key_only (delims : Delimiters) (pairs : List (Key × Form)) {k l : Key} (v : Form)
    (hk : k.IsShared) (hl : l.IsShared) (hne : (k.toForm == l.toForm) = false) :
    ∃ pairs', Form.assoc k.toForm v (.map delims pairs) = .ok (.map delims pairs') ∧
      Form.lookup? pairs' k.toForm = some v ∧
      Form.lookup? pairs' l.toForm = if k.collides l then some v else Form.lookup? pairs l.toForm := by
  have hindex : k.index = l.index ↔ k.collides l = true := by
    rw [index_eq_iff hk hl, hne]
    simp
  refine ⟨pairs ++ [(k, v)], assoc_toForm k v delims pairs, ?_, ?_⟩
  · rw [lookup?_append_singleton, if_pos rfl]
  · rw [lookup?_append_singleton]
    simp only [hindex]

/-- The string and the keyword of one name do not collide: what is added under the string leaves the keyword alone. -/
theorem assoc_under_string_leaves_keyword :
    ∃ pairs', Form.assoc (.str "x" none) (.bool true) (.map {} [(.keyword ⟨.shared, "x"⟩ none, .bool false)]) =
        .ok (.map {} pairs') ∧
      Form.lookup? pairs' (.str "x" none) = some (.bool true) ∧
      Form.lookup? pairs' (.keyword ⟨.shared, "x"⟩ none) = some (.bool false) := by
  have hkeyword : Key.IsShared (.keyword ⟨.shared, "x"⟩ none) := rfl
  have hstring : Key.IsShared (.str "x" none) := trivial
  exact assoc_disturbs_colliding_key_only {} [(.keyword ⟨.shared, "x"⟩ none, .bool false)] (.bool true) hstring hkeyword rfl

/-- Adding a value under the string of the sign and a name changes what the keyword of that name finds, though the two keys
differ. -/
theorem string_key_disturbs_keyword :
    ((Form.str "\u029ex" none == Form.keyword ⟨.shared, "x"⟩ none) = false) ∧
      ∃ pairs', Form.assoc (.str "\u029ex" none) (.bool true) (.map {} [(.keyword ⟨.shared, "x"⟩ none, .bool false)]) =
          .ok (.map {} pairs') ∧
        Form.lookup? pairs' (.keyword ⟨.shared, "x"⟩ none) = some (.bool true) ∧
        Form.lookup? [(.keyword ⟨.shared, "x"⟩ none, .bool false)] (.keyword ⟨.shared, "x"⟩ none) = some (.bool false) :=
  ⟨rfl, _, rfl, rfl, rfl⟩

end TinyLisp

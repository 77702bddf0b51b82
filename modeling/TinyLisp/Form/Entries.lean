import TinyLisp.Form.Basic

/-!
# What a list of keys and values binds

A map remembers every key and value added to it. What it binds is found in two ways. `get?` looks for the value added last
under a key. `entries` gives every key once, where it was added first and as it was written there, with the value added last.
The values may be of any type, so that a map can be printed or evaluated value by value before it is looked through.
`nodup_entries` says that no two entries share an index, and `get?_entries` that both ways find the same values.
-/

namespace TinyLisp.Entries

variable {α : Type}

/-- Whether a key with the given index is bound. -/
def binds (pairs : List (Key × α)) (index : String) : Bool := pairs.any (·.1.index == index)

/-- The value added last under a key with the given index. -/
def get? (pairs : List (Key × α)) (index : String) : Option α :=
  match pairs with
  | [] => none
  | (k, v) :: rest => (get? rest index).or (if k.index = index then some v else none)

/-- The entries with a value put under a key: in the place of the entry with the key's index, or at the end. -/
def put (k : Key) (v : α) : List (Key × α) → List (Key × α)
  | [] => [(k, v)]
  | (k', v') :: rest => if k'.index = k.index then (k', v) :: rest else (k', v') :: put k v rest

/-- The entries of a map: every key once, with its latest value, in the order of first addition. -/
def entries (pairs : List (Key × α)) : List (Key × α) := pairs.foldl (fun es p => put p.1 p.2 es) []

/-- A key is bound exactly when it has a value. -/
theorem isSome_get? (pairs : List (Key × α)) (index : String) : (get? pairs index).isSome = binds pairs index := by
  induction pairs with
  | nil => rfl
  | cons p rest ih => by_cases h : p.1.index = index <;> simp_all [get?, binds]

/-- A value added under a key is found under it, and hides what was added before. -/
theorem get?_append (pairs more : List (Key × α)) (index : String) :
    get? (pairs ++ more) index = (get? more index).or (get? pairs index) := by
  induction pairs with
  | nil => simp [get?]
  | cons p rest ih => simp [get?, ih, Option.or_assoc]

/-- Adding a key and a value at the end puts them among the entries. -/
theorem entries_append_singleton (pairs : List (Key × α)) (p : Key × α) :
    entries (pairs ++ [p]) = put p.1 p.2 (entries pairs) := by
  simp [entries]

/-- The indices of keys. -/
def indices (pairs : List (Key × α)) : List String := pairs.map (·.1.index)

/-- A key is bound exactly when its index is among the indices. -/
theorem binds_iff_mem_indices {pairs : List (Key × α)} {index : String} :
    binds pairs index = true ↔ index ∈ indices pairs := by
  simp [binds, indices]

@[simp] theorem indices_cons (p : Key × α) (rest : List (Key × α)) :
    indices (p :: rest) = p.1.index :: indices rest := rfl

/-- Nothing is found exactly under an index that is not there. -/
theorem get?_eq_none_iff {pairs : List (Key × α)} {index : String} :
    get? pairs index = none ↔ index ∉ indices pairs := by
  rw [← Option.not_isSome_iff_eq_none, isSome_get?, binds_iff_mem_indices]

/-- Putting a value under a key adds the key's index at the end, unless it is there. -/
theorem indices_put (k : Key) (v : α) (es : List (Key × α)) :
    indices (put k v es) = if k.index ∈ indices es then indices es else indices es ++ [k.index] := by
  induction es with
  | nil => simp [put, indices]
  | cons e es ih =>
    by_cases h : e.1.index = k.index
    · simp [put, h]
    · rw [put, if_neg h, indices_cons, ih, indices_cons]
      simp only [List.mem_cons, Ne.symm h, false_or]
      split <;> rfl

/-- Putting a value under a key keeps indices different. -/
theorem nodup_indices_put (k : Key) (v : α) {es : List (Key × α)} (h : (indices es).Nodup) :
    (indices (put k v es)).Nodup := by
  rw [indices_put]
  split
  · exact h
  · next hn =>
    refine List.nodup_append.mpr ⟨h, by simp, fun a ha b hb => ?_⟩
    rintro rfl
    exact hn (List.mem_singleton.mp hb ▸ ha)

/-- Without repeated indices, a value put under a key is found there, and the others stay. -/
theorem get?_put (k : Key) (v : α) {es : List (Key × α)} (h : (indices es).Nodup) (index : String) :
    get? (put k v es) index = if k.index = index then some v else get? es index := by
  induction es with
  | nil => simp [put, get?]
  | cons e es ih =>
    obtain ⟨hnot, hrest⟩ := List.nodup_cons.mp h
    have hnone : get? es e.1.index = none := get?_eq_none_iff.mpr hnot
    by_cases hk : e.1.index = k.index
    · by_cases hi : k.index = index
      · simp_all [put, get?]
      · simp [put, get?, hk, hi]
    · rw [put, if_neg hk, get?, get?, ih hrest]
      by_cases hi : k.index = index
      · simp [hi]
      · simp [hi]

/-- No two entries share an index. -/
theorem nodup_entries (pairs : List (Key × α)) : (indices (entries pairs)).Nodup := by
  suffices h : ∀ es : List (Key × α), (indices es).Nodup →
      (indices (pairs.foldl (fun es p => put p.1 p.2 es) es)).Nodup from h [] (by simp [indices])
  induction pairs with
  | nil => exact fun es h => h
  | cons p rest ih => exact fun es h => ih _ (nodup_indices_put p.1 p.2 h)

/-- The entries bind what the keys and values bind that they were made of. -/
theorem get?_entries (pairs : List (Key × α)) (index : String) : get? (entries pairs) index = get? pairs index := by
  suffices h : ∀ es : List (Key × α), (indices es).Nodup →
      get? (pairs.foldl (fun es p => put p.1 p.2 es) es) index = (get? pairs index).or (get? es index) by
    simpa [entries, get?] using h [] (by simp [indices])
  induction pairs with
  | nil => simp [get?]
  | cons p rest ih =>
    intro es h
    rw [List.foldl_cons, ih _ (nodup_indices_put p.1 p.2 h), get?_put p.1 p.2 h, get?]
    by_cases hp : p.1.index = index <;> simp [hp]

end TinyLisp.Entries

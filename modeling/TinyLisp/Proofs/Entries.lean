import Mathlib.Data.List.Induction
import TinyLisp.Form.Entries

/-!
# Entries under a change of keys and values

The entries of a map depend on its keys only through their index. So a change of keys that keeps the index, with any change of
values, may be made before the entries are taken or after it (`entries_map`). Taking the entries of entries changes nothing
(`entries_of_nodup`). What the entries of a map are can also be said without adding one key after the other: their indices are
those of the map without repetition (`indices_entries`), each with the key that comes first (`find?_entries`) and the value that
comes last (`get?_eq_getLast?`).
-/

namespace TinyLisp.Entries

variable {α β : Type}

/-- Putting a value commutes with a change of keys and values that keeps the index. -/
theorem put_map {h : Key → Key} (hh : ∀ k, (h k).index = k.index) (g : α → β) (k : Key) (v : α) (es : List (Key × α)) :
    put (h k) (g v) (es.map (Prod.map h g)) = (put k v es).map (Prod.map h g) := by
  induction es with
  | nil => rfl
  | cons e es ih =>
    rw [List.map_cons, Prod.map, put, put, hh, hh, ih]
    split <;> rfl

/-- Taking the entries commutes with a change of keys and values that keeps the index. -/
theorem entries_map {h : Key → Key} (hh : ∀ k, (h k).index = k.index) (g : α → β) (ps : List (Key × α)) :
    entries (ps.map (Prod.map h g)) = (entries ps).map (Prod.map h g) := by
  suffices hs : ∀ es, (ps.map (Prod.map h g)).foldl (fun es p => put p.1 p.2 es) (es.map (Prod.map h g)) =
      (ps.foldl (fun es p => put p.1 p.2 es) es).map (Prod.map h g) from hs []
  induction ps with
  | nil => exact fun es => rfl
  | cons p rest ih =>
    intro es
    rw [List.map_cons, List.foldl_cons, List.foldl_cons, Prod.map_fst, Prod.map_snd, put_map hh, ih]

/-- A change of keys and values that keeps the index finds the changed value. -/
theorem get?_map {h : Key → Key} (hh : ∀ k, (h k).index = k.index) (g : α → β) (ps : List (Key × α)) (index : String) :
    get? (ps.map (Prod.map h g)) index = (get? ps index).map g := by
  induction ps with
  | nil => rfl
  | cons p rest ih =>
    rw [List.map_cons, get?, get?, ih, Prod.map_fst, Prod.map_snd, hh]
    cases get? rest index <;> by_cases hk : p.1.index = index <;> simp [hk]

/-- Putting a value under a new index adds it at the end. -/
theorem put_of_not_mem {k : Key} {es : List (Key × α)} (h : k.index ∉ indices es) (v : α) :
    put k v es = es ++ [(k, v)] := by
  induction es with
  | nil => rfl
  | cons e es ih =>
    simp only [indices_cons, List.mem_cons, not_or] at h
    rw [put, if_neg (Ne.symm h.1), ih h.2, List.cons_append]

/-- Where no index comes twice, every key and value is an entry. -/
theorem entries_of_nodup {ps : List (Key × α)} (h : (indices ps).Nodup) : entries ps = ps := by
  suffices hs : ∀ es : List (Key × α), (indices (es ++ ps)).Nodup →
      ps.foldl (fun es p => put p.1 p.2 es) es = es ++ ps from hs [] h
  clear h
  induction ps with
  | nil => exact fun es _ => (List.append_nil es).symm
  | cons p rest ih =>
    intro es h
    have hp : p.1.index ∉ indices es := by
      rw [indices, List.map_append, List.nodup_append] at h
      exact fun hm => h.2.2 _ hm p.1.index (by simp) rfl
    rw [List.foldl_cons, put_of_not_mem hp, ih _ (by simpa using h), List.append_assoc]
    rfl

/-- Taking the entries of entries changes nothing. -/
@[simp] theorem entries_entries (ps : List (Key × α)) : entries (entries ps) = entries ps :=
  entries_of_nodup (nodup_entries ps)

/-- What holds of the key and the value put, and of the entries before, holds of the entries after. -/
theorem forall_put {P : Key → Prop} {Q : α → Prop} {k : Key} {v : α} (hk : P k) (hv : Q v) {es : List (Key × α)}
    (h : ∀ e ∈ es, P e.1 ∧ Q e.2) : ∀ e ∈ put k v es, P e.1 ∧ Q e.2 := by
  induction es with
  | nil => simpa [put] using ⟨hk, hv⟩
  | cons e es ih =>
    obtain ⟨he, hes⟩ := List.forall_mem_cons.mp h
    rw [put]
    split
    · exact List.forall_mem_cons.mpr ⟨⟨he.1, hv⟩, hes⟩
    · exact List.forall_mem_cons.mpr ⟨he, ih hes⟩

/-- What holds of all keys and values holds of the entries. -/
theorem forall_entries {P : Key → Prop} {Q : α → Prop} {ps : List (Key × α)} (h : ∀ p ∈ ps, P p.1 ∧ Q p.2) :
    ∀ e ∈ entries ps, P e.1 ∧ Q e.2 := by
  suffices hs : ∀ es : List (Key × α), (∀ e ∈ es, P e.1 ∧ Q e.2) →
      ∀ e ∈ ps.foldl (fun es p => put p.1 p.2 es) es, P e.1 ∧ Q e.2 from hs [] (by simp)
  induction ps with
  | nil => exact fun es hes => hes
  | cons p rest ih =>
    obtain ⟨hp, hrest⟩ := List.forall_mem_cons.mp h
    exact fun es hes => ih hrest _ (forall_put hp.1 hp.2 hes)

/-- What holds of all values holds of those of the entries. -/
theorem forall_values_entries {Q : α → Prop} {ps : List (Key × α)} (h : ∀ p ∈ ps, Q p.2) : ∀ e ∈ entries ps, Q e.2 :=
  fun e he => (forall_entries (P := fun _ => True) (fun p hp => ⟨trivial, h p hp⟩) e he).2

/-- A value that is found was added under a key with the index. -/
theorem mem_of_get? {ps : List (Key × α)} {index : String} {v : α} (h : get? ps index = some v) :
    ∃ k, (k, v) ∈ ps ∧ k.index = index := by
  induction ps with
  | nil => cases h
  | cons p rest ih =>
    rw [get?, Option.or_eq_some_iff] at h
    rcases h with h | ⟨_, h⟩
    · obtain ⟨k, hk, hi⟩ := ih h
      exact ⟨k, List.mem_cons_of_mem _ hk, hi⟩
    · split at h
      · next hi =>
        cases h
        exact ⟨p.1, List.mem_cons_self, hi⟩
      · cases h

/-! ## First keys and last values -/

/-- The indices of the entries are those of the keys, each once, where it comes first. -/
theorem indices_entries (ps : List (Key × α)) : indices (entries ps) = (indices ps).eraseDups := by
  induction ps using List.reverseRecOn with
  | nil => rfl
  | append_singleton ps p ih =>
    have hindices : indices (ps ++ [p]) = indices ps ++ [p.1.index] := by simp [indices]
    rw [entries_append_singleton, indices_put, ih, hindices, List.eraseDups_append]
    by_cases hp : p.1.index ∈ indices ps
    · simp [hp, List.removeAll]
    · simp [hp, List.removeAll, List.eraseDups_cons]

/-- Putting a value under a key keeps the key that is found under the index, if there is one. -/
theorem find?_put (k : Key) (v : α) (es : List (Key × α)) (index : String) :
    ((put k v es).find? (·.1.index == index)).map Prod.fst =
      ((es.find? (·.1.index == index)).map Prod.fst).or (if k.index = index then some k else none) := by
  induction es with
  | nil => by_cases hk : k.index = index <;> simp [put, hk]
  | cons e es ih =>
    rw [put]
    by_cases he : e.1.index = index
    · split <;> simp [he]
    · have hne : (e.1.index == index) = false := beq_false_of_ne he
      split
      · next hek => simp [hne, ← hek, he]
      · simp [hne, ih]

/-- The key of an entry is the one that comes first under its index. -/
theorem find?_entries (ps : List (Key × α)) (index : String) :
    ((entries ps).find? (·.1.index == index)).map Prod.fst = (ps.find? (·.1.index == index)).map Prod.fst := by
  induction ps using List.reverseRecOn with
  | nil => rfl
  | append_singleton ps p ih =>
    rw [entries_append_singleton, find?_put, ih, List.find?_append]
    cases ps.find? (·.1.index == index) with
    | some q => rfl
    | none => by_cases hp : p.1.index = index <;> simp [hp]

/-- Where no index comes twice, what stands under the index of an entry is that entry. -/
theorem find?_of_mem {es : List (Key × α)} (h : (indices es).Nodup) {e : Key × α} (he : e ∈ es) :
    es.find? (·.1.index == e.1.index) = some e := by
  induction es with
  | nil => cases he
  | cons e' es ih =>
    obtain ⟨hnot, hrest⟩ := List.nodup_cons.mp h
    rcases List.mem_cons.mp he with rfl | he
    · simp
    · have hne : (e'.1.index == e.1.index) = false :=
        beq_false_of_ne fun heq => hnot (List.mem_map.mpr ⟨e, he, heq.symm⟩)
      rw [List.find?_cons, hne]
      exact ih hrest he

/-- Where no index comes twice, the value of an entry is found under its index. -/
theorem get?_of_mem {es : List (Key × α)} (h : (indices es).Nodup) {e : Key × α} (he : e ∈ es) :
    get? es e.1.index = some e.2 := by
  induction es with
  | nil => cases he
  | cons e' es ih =>
    obtain ⟨hnot, hrest⟩ := List.nodup_cons.mp h
    rcases List.mem_cons.mp he with rfl | he
    · have hnone : get? es e.1.index = none := get?_eq_none_iff.mpr hnot
      simp [get?, hnone]
    · rw [get?, ih hrest he, Option.some_or]

/-- The value that is found is the one that comes last under the index. -/
theorem get?_eq_getLast? (ps : List (Key × α)) (index : String) :
    get? ps index = (ps.filter (·.1.index == index)).getLast?.map Prod.snd := by
  induction ps with
  | nil => rfl
  | cons p rest ih =>
    rw [get?, ih]
    by_cases hp : p.1.index = index
    · rw [List.filter_cons_of_pos (by simpa using hp), List.getLast?_cons, if_pos hp]
      cases (rest.filter (·.1.index == index)).getLast? <;> rfl
    · rw [List.filter_cons_of_neg (by simpa using hp), if_neg hp, Option.or_none]

end TinyLisp.Entries

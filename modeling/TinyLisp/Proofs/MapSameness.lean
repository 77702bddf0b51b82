import TinyLisp.Proofs.Coherence
import TinyLisp.Proofs.Sameness

/-!
# When kept maps are the same

Kept maps are compared by their indices: they have to be of one size, and every text of the first index has to be in the second,
with a value that is the same as its own. Maps in forms are compared in this way, too (`IndexedMap.same_ofPairs`), with the values
of the two maps the other way round, which is no difference because sameness is an equivalence (`sameness_equivalence`).

The comparison goes through the keys of one map only, but it says the same for every key there is: `same_maps_extensional` says that
maps are the same exactly when every key finds the same in both. So how a map was built does not count, only what was bound last.
-/

namespace TinyLisp

/-- What holds of the index and the value of every entry holds of all that is found. -/
theorem Entries.forall_entries_iff {α : Type} {P : String → α → Prop} {ps : List (Key × α)} :
    (∀ e ∈ entries ps, P e.1.index e.2) ↔ ∀ index a, get? ps index = some a → P index a := by
  constructor
  · intro h index a ha
    rw [← get?_entries] at ha
    obtain ⟨k, hk, rfl⟩ := mem_of_get? ha
    exact h (k, a) hk
  · intro h e he
    refine h _ _ ?_
    rw [← get?_entries, get?_of_mem (nodup_entries ps) he]

namespace IndexedMap

/-- Whether two maps have equally many keys and every text of the first has the same value in the second. -/
def same (m n : IndexedMap) : Bool :=
  m.size == n.size && m.index.all fun e => (n.index.lookup e.1).any fun found => found.2 == e.2.2

/-- The map with values bound to keys, one after the other. -/
def assocAll (m : IndexedMap) (calls : List (Key × Form)) : Except ReadError IndexedMap :=
  calls.foldlM (fun m c => m.assoc c.1.toForm c.2) m

/-- A key finds the value under its index. -/
theorem get?_ofPairs_toForm (delims : Delimiters) (pairs : List (Key × Form)) (k : Key) :
    (ofPairs delims pairs).get? k.toForm = Entries.get? pairs k.index := by
  rw [get?_ofPairs, Form.lookup?, Form.asKey?_toForm, Option.bind_some]

/-- Maps are compared as the forms that hold them. -/
theorem same_ofPairs (d e : Delimiters) (as bs : List (Key × Form)) :
    (ofPairs d as).same (ofPairs e bs) = (Form.map d as == .map e bs) := by
  have hsize : ∀ delims ps, (ofPairs delims ps).size = (Entries.entries ps).length := fun _ _ => List.length_map _
  have hfound : ∀ text a, (((indexOf bs).lookup text).any fun found => found.2 == a) = true ↔
      ∃ b, Entries.get? bs text = some b ∧ a.same b = true := by
    intro text a
    rw [← lookup_indexOf, ← Option.any_map (f := Prod.snd) (p := fun b => b == a), Option.any_eq_true]
    simp only [BEq.comm (b := a), Form.beq_eq_same]
  rw [Bool.eq_iff_iff, Form.beq_eq_same, Form.same, same, hsize, hsize, Bool.and_eq_true, Bool.and_eq_true, sameValues_iff]
  refine and_congr_right fun _ => ?_
  rw [List.all_eq_true, ← Entries.forall_entries_iff, ofPairs, indexOf, List.forall_mem_map]
  exact forall₂_congr fun entry _ => hfound entry.1.index entry.2

/-- Values are bound to keys by adding them to the keys and values. -/
theorem assocAll_ofPairs (delims : Delimiters) (pairs calls : List (Key × Form)) :
    (ofPairs delims pairs).assocAll calls = .ok (ofPairs delims (pairs ++ calls)) := by
  induction calls generalizing pairs with
  | nil => rw [List.append_nil]; rfl
  | cons c calls ih =>
    have hstep : (ofPairs delims pairs).assoc c.1.toForm c.2 = .ok (ofPairs delims (pairs ++ [c])) :=
      assoc_ofPairs_toForm delims pairs c.1 c.2
    have hrest := ih (pairs ++ [c])
    rw [List.append_assoc, List.singleton_append] at hrest
    rw [assocAll, List.foldlM_cons, hstep]
    exact hrest

/-- Maps are the same exactly when every key finds the same value, or none, in both. -/
theorem same_ofPairs_iff {d e : Delimiters} {as bs : List (Key × Form)} :
    (ofPairs d as).same (ofPairs e bs) = true ↔
      ∀ k : Key, Option.Rel (fun a b => (a == b) = true) (Entries.get? as k.index) (Entries.get? bs k.index) := by
  rw [same_ofPairs, Form.beq_eq_same, same_map_iff]
  exact ⟨fun h k => h k.index, fun h index => h (.str index none)⟩

end IndexedMap

open IndexedMap

/-- Sameness is an equivalence on all forms, and maps in forms are compared as the kept maps are. -/
theorem sameness_equivalence :
    Equivalence (fun f g : Form => (f == g) = true) ∧
      ∀ d e as bs, (ofPairs d as).same (ofPairs e bs) = (Form.map d as == .map e bs) :=
  ⟨⟨fun _ => BEq.rfl, BEq.symm, BEq.trans⟩, same_ofPairs⟩

/-- Maps that operations make are the same exactly when every key finds values that are the same in both, or none in either. So
two rows of calls that bind values to keys lead to maps that are the same exactly when they leave the same last value under every
key, where a key that is not bound keeps the value from before. -/
theorem same_maps_extensional :
    (∀ m n, Made m → Made n →
        (m.same n = true ↔ ∀ k : Key, Option.Rel (fun a b => (a == b) = true) (m.get? k.toForm) (n.get? k.toForm))) ∧
      ∀ m n, Made m → Made n → ∀ calls calls', ∃ m' n', m.assocAll calls = .ok m' ∧ n.assocAll calls' = .ok n' ∧
        (m'.same n' = true ↔ ∀ k : Key, Option.Rel (fun a b => (a == b) = true)
          ((Entries.get? calls k.index).or (m.get? k.toForm)) ((Entries.get? calls' k.index).or (n.get? k.toForm))) := by
  constructor
  · intro m n hm hn
    obtain ⟨d, as, rfl⟩ := hm.exists_ofPairs
    obtain ⟨e, bs, rfl⟩ := hn.exists_ofPairs
    simp only [same_ofPairs_iff, get?_ofPairs_toForm]
  · intro m n hm hn calls calls'
    obtain ⟨d, as, rfl⟩ := hm.exists_ofPairs
    obtain ⟨e, bs, rfl⟩ := hn.exists_ofPairs
    refine ⟨_, _, assocAll_ofPairs d as calls, assocAll_ofPairs e bs calls', ?_⟩
    simp only [same_ofPairs_iff, get?_ofPairs_toForm, Entries.get?_append]

/-- A map where a value was replaced is the same as one that was built in another order, with the keyword of another table. -/
theorem same_maps_extensional_reordered :
    let a : TableId → Key := fun table => .keyword ⟨table, "a"⟩ none
    ∃ m n, IndexedMap.assocAll {} [(a .shared, .ofWord 1), (.str "b" none, .bool true), (a .shared, .ofWord 2)] = .ok m ∧
      IndexedMap.assocAll {} [(.str "b" none, .bool true), (a (.named "t"), .ofWord 2)] = .ok n ∧ m.same n = true ∧
        ∀ k : Key, Option.Rel (fun a b => (a == b) = true) (m.get? k.toForm) (n.get? k.toForm) := by
  intro a
  obtain ⟨m, n, hm, hn, hsame⟩ := same_maps_extensional.2 {} {} .new .new
    [(a .shared, .ofWord 1), (.str "b" none, .bool true), (a .shared, .ofWord 2)]
    [(.str "b" none, .bool true), (a (.named "t"), .ofWord 2)]
  have hmade : Made m := by
    obtain rfl := Except.ok.inj ((assocAll_ofPairs {} [] _).symm.trans hm)
    exact made_ofPairs _ _
  have hmade' : Made n := by
    obtain rfl := Except.ok.inj ((assocAll_ofPairs {} [] _).symm.trans hn)
    exact made_ofPairs _ _
  have heq : m.same n = true := by
    refine hsame.mpr fun k => ?_
    have hnone : ({} : IndexedMap).get? k.toForm = none := get?_ofPairs_toForm {} [] k
    have ha : ∀ table, (a table).index = "\u029ea" := fun _ => rfl
    have hb : Key.index (.str "b" none) = "b" := rfl
    simp only [hnone, Entries.get?, ha, hb]
    by_cases hka : "\u029ea" = k.index
    · simp [hka]
    · by_cases hkb : "b" = k.index <;> simp [hka, hkb]
  exact ⟨m, n, hm, hn, heq, (same_maps_extensional.1 m n hmade hmade').mp heq⟩

end TinyLisp

import Mathlib
import TinyLisp.Proofs.MapSameness

/-!
# Interning in memory

A table does not keep keywords but handles on places in memory where names are written, and two keywords are equal if their handles
refer to the same place. A `Heap` has all tables and the places in use. Interning a name in a table gives the handle that the table
has for the name; where it has none, a place that is not in use is taken for it, whichever the `Allocator` picks.

`Heap.Represents` relates a heap to keyword tables: the tables know the same names, and different entries, of one table or of two,
are at different places. Interning keeps that, and it keeps the handles that are there, so every handle that a run of calls has
given belongs to an entry at its end (`Heap.Represents.internAll`). That is why handles are the same exactly for calls with the same
table and the same name (`interning_identifies`). As keys of maps keywords are not compared by their places: there only the name
counts.
-/

namespace TinyLisp

/-! ## Handles and places -/

/-- A handle on an interned name: a place in memory, and the name that is written there. -/
structure Handle where
  address : Nat
  name : String

/-- Whether two handles refer to the same place. -/
def Handle.isSame (h h' : Handle) : Bool := h.address == h'.address

/-- A choice of places that are not in use. -/
structure Allocator where
  pick : List Nat → Nat
  pick_not_mem : ∀ used, pick used ∉ used

/-- The choice of the place after all that are in use. -/
def Allocator.next : Allocator where
  pick used := used.sum + 1
  pick_not_mem used hmem := by
    have hle : used.sum + 1 ≤ used.sum := List.le_sum_of_mem hmem
    omega

/-- The places in use, and the names in every table with their handles. -/
structure Heap where
  used : List Nat := []
  entries : TableId → List (String × Handle) := fun _ => []

namespace Heap

/-- The handle that a table has for a name. -/
def find? (heap : Heap) (table : TableId) (name : String) : Option Handle := (heap.entries table).lookup name

/-- The handle that a table has for a name, or else a new one, which it has from then on. -/
def findOrInsert (heap : Heap) (alloc : Allocator) (table : TableId) (name : String) : Handle × Heap :=
  match heap.find? table name with
  | some existing => (existing, heap)
  | none =>
    let h : Handle := ⟨alloc.pick heap.used, name⟩
    (h, ⟨h.address :: heap.used, Function.update heap.entries table (heap.entries table ++ [(name, h)])⟩)

/-- Interns a name in a table. Only if the table has no handle for it, the entry is looked up again in order to be made. -/
def intern (heap : Heap) (alloc : Allocator) (table : TableId) (name : String) : Handle × Heap :=
  match heap.find? table name with
  | some existing => (existing, heap)
  | none => heap.findOrInsert alloc table name

/-- Interns names in tables, one after the other. -/
def internAll (heap : Heap) (alloc : Allocator) : List (TableId × String) → List Handle × Heap
  | [] => ([], heap)
  | (table, name) :: calls =>
    let (h, heap) := heap.intern alloc table name
    let (hs, heap) := internAll heap alloc calls
    (h :: hs, heap)

/-- The number of entries of a table. -/
def size (heap : Heap) (table : TableId) : Nat := (heap.entries table).length

/-- Whether a table has no entries. -/
def isEmpty (heap : Heap) (table : TableId) : Bool := (heap.entries table).isEmpty

/-- Whether a table has an entry for a name. -/
def contains (heap : Heap) (table : TableId) (name : String) : Bool := (heap.find? table name).isSome

end Heap

namespace KeywordTable

/-- Interns a name in one of the tables. -/
def internIn (tables : TableId → KeywordTable) (table : TableId) (name : String) : Keyword × (TableId → KeywordTable) :=
  let (k, t) := (tables table).intern name
  (k, Function.update tables table t)

/-- Interns names in tables, one after the other. -/
def internAll (tables : TableId → KeywordTable) : List (TableId × String) → List Keyword × (TableId → KeywordTable)
  | [] => ([], tables)
  | (table, name) :: calls =>
    let (k, tables) := internIn tables table name
    let (ks, tables) := internAll tables calls
    (k :: ks, tables)

/-- Only the table where a name is interned is changed. -/
@[simp] theorem internIn_snd (tables : TableId → KeywordTable) (table : TableId) (name : String) :
    (internIn tables table name).2 = Function.update tables table ((tables table).intern name).2 := rfl

/-- The first call is made, and the others are made on the tables that it leaves. -/
theorem internAll_cons (tables : TableId → KeywordTable) (c : TableId × String) (calls : List (TableId × String)) :
    internAll tables (c :: calls) =
      ((internIn tables c.1 c.2).1 :: (internAll (internIn tables c.1 c.2).2 calls).1,
        (internAll (internIn tables c.1 c.2).2 calls).2) := rfl

/-- A table that knows a name is not changed when the name is interned. -/
theorem intern_of_mem {t : KeywordTable} {name : String} (h : name ∈ t.names) : (t.intern name).2 = t := by
  simp [intern, contains, h]

/-- A table that does not know a name knows it after all others when it is interned. -/
theorem names_intern_of_not_mem {t : KeywordTable} {name : String} (h : name ∉ t.names) :
    (t.intern name).2.names = t.names ++ [name] := by
  simp [intern, contains, h]

/-- A table stays the table that it is. -/
theorem id_intern (t : KeywordTable) (name : String) : (t.intern name).2.id = t.id := by
  rw [intern]
  split <;> rfl

end KeywordTable

open KeywordTable

/-! ## Heaps and tables -/

namespace Heap

/-- Whether a heap has the given tables: their names have entries in the order of the tables, each with a handle on its name at a
place in use, and no two entries of all tables are at the same place. -/
structure Represents (heap : Heap) (tables : TableId → KeywordTable) : Prop where
  id : ∀ t, (tables t).id = t
  nodup : ∀ t, (tables t).names.Nodup
  names : ∀ t, (heap.entries t).map Prod.fst = (tables t).names
  written : ∀ t, ∀ e ∈ heap.entries t, e.2.name = e.1
  used : ∀ t, ∀ e ∈ heap.entries t, e.2.address ∈ heap.used
  apart : ∀ t t', ∀ e ∈ heap.entries t, ∀ e' ∈ heap.entries t', e.2.address = e'.2.address → t = t' ∧ e = e'

variable {heap : Heap} {tables : TableId → KeywordTable}

/-- Nothing in memory and tables without names. -/
theorem represents_empty : Represents {} fun t => ⟨t, []⟩ where
  id _ := rfl
  nodup _ := List.nodup_nil
  names _ := rfl
  written _ := nofun
  used _ := nofun
  apart _ _ := nofun

/-- A handle that is found belongs to an entry. -/
theorem mem_of_find? {table : TableId} {name : String} {h : Handle} (hf : heap.find? table name = some h) :
    (name, h) ∈ heap.entries table := by
  obtain ⟨before, after, hentries, -⟩ := List.lookup_eq_some_iff.mp hf
  rw [hentries]
  exact List.mem_append_right _ List.mem_cons_self

/-- Looking an entry up again changes nothing. -/
theorem intern_eq_findOrInsert (heap : Heap) (alloc : Allocator) (table : TableId) (name : String) :
    heap.intern alloc table name = heap.findOrInsert alloc table name := by
  unfold intern findOrInsert
  cases heap.find? table name <;> rfl

namespace Represents

/-- A heap has an entry for a name exactly if the table knows it. -/
theorem contains_eq (h : heap.Represents tables) (table : TableId) (name : String) :
    heap.contains table name = (tables table).contains name := by
  rw [Bool.eq_iff_iff, Heap.contains, find?, List.lookup_isSome_iff, KeywordTable.contains, List.contains_iff_mem, ← h.names,
    List.mem_map]
  exact exists_congr fun e => and_congr_right fun _ => beq_iff_eq.trans eq_comm

/-- What a heap has no entry for, the table does not know. -/
theorem not_mem_of_find? (h : heap.Represents tables) {table : TableId} {name : String} (hf : heap.find? table name = none) :
    name ∉ (tables table).names := by
  have hcontains := h.contains_eq table name
  rw [Heap.contains, hf] at hcontains
  simpa [KeywordTable.contains] using hcontains.symm

/-- A table has one handle for a name. -/
theorem eq_of_mem (h : heap.Represents tables) {table : TableId} {name : String} {g g' : Handle}
    (hg : (name, g) ∈ heap.entries table) (hg' : (name, g') ∈ heap.entries table) : g = g' := by
  have hnodup : ((heap.entries table).map Prod.fst).Nodup := h.names table ▸ h.nodup table
  have heq : (name, g) = (name, g') := List.inj_on_of_nodup_map hnodup hg hg' rfl
  exact congrArg Prod.snd heq

/-- Handles in entries refer to the same place exactly if they are for one name in one table. -/
theorem isSame_iff (h : heap.Represents tables) {c c' : TableId × String} {g g' : Handle}
    (hg : (c.2, g) ∈ heap.entries c.1) (hg' : (c'.2, g') ∈ heap.entries c'.1) : g.isSame g' = true ↔ c = c' := by
  rw [Handle.isSame, beq_iff_eq]
  constructor
  · intro haddress
    obtain ⟨htable, heq⟩ := h.apart c.1 c'.1 _ hg _ hg' haddress
    exact Prod.ext htable (congrArg Prod.fst heq)
  · rintro rfl
    rw [h.eq_of_mem hg hg']

/-- Tables in memory and keyword tables have equally many entries. -/
theorem size_eq (h : heap.Represents tables) (table : TableId) : heap.size table = (tables table).size := by
  rw [Heap.size, KeywordTable.size, ← h.names, List.length_map]

/-- Tables in memory are empty where keyword tables are. -/
theorem isEmpty_eq (h : heap.Represents tables) (table : TableId) : heap.isEmpty table = (tables table).isEmpty := by
  rw [Heap.isEmpty, KeywordTable.isEmpty, ← h.names, List.isEmpty_map]

/-- A new entry at a place that was not in use. -/
theorem insert (h : heap.Represents tables) {table : TableId} {name : String} (hname : name ∉ (tables table).names)
    {address : Nat} (hfresh : address ∉ heap.used) :
    Represents
      ⟨address :: heap.used, Function.update heap.entries table (heap.entries table ++ [(name, ⟨address, name⟩)])⟩
      (internIn tables table name).2 := by
  -- An entry of a table is an old one, or it is the new one and the table is the one that got it.
  have hmem : ∀ t e, e ∈ Function.update heap.entries table (heap.entries table ++ [(name, ⟨address, name⟩)]) t →
      e ∈ heap.entries t ∨ t = table ∧ e = (name, ⟨address, name⟩) := by
    intro t e he
    by_cases ht : t = table
    · subst ht
      rw [Function.update_self, List.mem_append, List.mem_singleton] at he
      exact he.imp_right fun hnew => ⟨rfl, hnew⟩
    · rw [Function.update_of_ne ht] at he
      exact .inl he
  have hother : ∀ t e, e ∈ heap.entries t → e.2.address ≠ address := by
    intro t e he heq
    exact hfresh (heq ▸ h.used t e he)
  have hids : ∀ t, ((internIn tables table name).2 t).id = t :=
    (Function.forall_update_iff tables fun t kept => kept.id = t).mpr
      ⟨(id_intern _ name).trans (h.id table), fun t _ => h.id t⟩
  have hnodup : ∀ t, ((internIn tables table name).2 t).names.Nodup :=
    (Function.forall_update_iff tables fun _ kept => kept.names.Nodup).mpr
      ⟨nodup_names_intern (h.nodup table) name, fun t _ => h.nodup t⟩
  refine ⟨hids, hnodup, ?_, ?_, ?_, ?_⟩
  · intro t
    by_cases ht : t = table
    · subst ht
      simp [names_intern_of_not_mem hname, h.names]
    · simp [ht, h.names]
  · intro t e he
    rcases hmem t e he with hold | ⟨-, rfl⟩
    · exact h.written t e hold
    · rfl
  · intro t e he
    rcases hmem t e he with hold | ⟨-, rfl⟩
    · exact List.mem_cons_of_mem _ (h.used t e hold)
    · exact List.mem_cons_self
  · intro t t' e he e' he' heq
    rcases hmem t e he with hold | ⟨rfl, rfl⟩ <;> rcases hmem t' e' he' with hold' | ⟨rfl, rfl⟩
    · exact h.apart t t' e hold e' hold' heq
    · exact absurd heq (hother t e hold)
    · exact absurd heq.symm (hother t' e' hold')
    · exact ⟨rfl, rfl⟩

/-- Interning a name leads to a heap that has the tables with the name, gives the handle of an entry for it, and keeps the entries
that are there. -/
theorem intern (h : heap.Represents tables) (alloc : Allocator) (table : TableId) (name : String) :
    Represents (heap.intern alloc table name).2 (internIn tables table name).2 ∧
      (name, (heap.intern alloc table name).1) ∈ (heap.intern alloc table name).2.entries table ∧
      ∀ t, heap.entries t ⊆ (heap.intern alloc table name).2.entries t := by
  rw [intern_eq_findOrInsert, findOrInsert]
  cases hf : heap.find? table name with
  | some existing =>
    have hentry : (name, existing) ∈ heap.entries table := mem_of_find? hf
    have hknown : name ∈ (tables table).names := h.names table ▸ List.mem_map_of_mem hentry
    have hsame : (internIn tables table name).2 = tables := by
      rw [internIn_snd, intern_of_mem hknown, Function.update_eq_self]
    rw [hsame]
    exact ⟨h, hentry, fun t => List.Subset.refl _⟩
  | none =>
    refine ⟨h.insert (h.not_mem_of_find? hf) (alloc.pick_not_mem heap.used), ?_, ?_⟩
    · simp
    · intro t
      by_cases ht : t = table
      · subst ht
        simp
      · simp [ht]

/-- Names that are interned one after the other lead to a heap that has the tables with these names. Every handle that was given
belongs to an entry in the end. -/
theorem internAll (h : heap.Represents tables) (alloc : Allocator) (calls : List (TableId × String)) :
    Represents (heap.internAll alloc calls).2 (KeywordTable.internAll tables calls).2 ∧
      List.Forall₂ (fun c g => (c.2, g) ∈ (heap.internAll alloc calls).2.entries c.1) calls (heap.internAll alloc calls).1 ∧
      ∀ t, heap.entries t ⊆ (heap.internAll alloc calls).2.entries t := by
  induction calls generalizing heap tables with
  | nil => exact ⟨h, .nil, fun t => List.Subset.refl _⟩
  | cons c calls ih =>
    obtain ⟨hnext, hentry, hkept⟩ := h.intern alloc c.1 c.2
    obtain ⟨hend, hrest, hkept'⟩ := ih hnext
    exact ⟨hend, .cons (hkept' c.1 hentry) hrest, fun t => List.Subset.trans (hkept t) (hkept' t)⟩

end Represents

end Heap

/-! ## Runs of calls -/

namespace KeywordTable

/-- The names that calls intern in a table, one for each call. -/
def namesOf (calls : List (TableId × String)) (table : TableId) : List String :=
  (calls.filter (·.1 = table)).map Prod.snd

theorem mem_namesOf {calls : List (TableId × String)} {table : TableId} {name : String} :
    name ∈ namesOf calls table ↔ (table, name) ∈ calls := by
  simp [namesOf]

/-- A table knows a name after some calls exactly if it knew it before or one of the calls interned it there. -/
theorem mem_names_internAll {tables : TableId → KeywordTable} {calls : List (TableId × String)} {table : TableId}
    {name : String} :
    name ∈ ((internAll tables calls).2 table).names ↔ name ∈ (tables table).names ∨ (table, name) ∈ calls := by
  induction calls generalizing tables with
  | nil => simp [internAll]
  | cons c calls ih =>
    rw [internAll_cons, ih, internIn_snd, List.mem_cons, Prod.ext_iff]
    by_cases ht : table = c.1
    · subst ht
      simp only [Function.update_self, mem_names_intern, true_and]
      tauto
    · simp [ht]

/-- The keywords of calls are those of their tables and names. -/
theorem internAll_fst {tables : TableId → KeywordTable} (h : ∀ t, (tables t).id = t) (calls : List (TableId × String)) :
    (internAll tables calls).1 = calls.map fun c => ⟨c.1, c.2⟩ := by
  induction calls generalizing tables with
  | nil => rfl
  | cons c calls ih =>
    have hnext : ∀ t, ((internIn tables c.1 c.2).2 t).id = t :=
      (Function.forall_update_iff tables fun t kept => kept.id = t).mpr
        ⟨(id_intern _ c.2).trans (h c.1), fun t _ => h t⟩
    have hfirst : (internIn tables c.1 c.2).1 = ⟨c.1, c.2⟩ := congrArg (Keyword.mk · c.2) (h c.1)
    rw [internAll_cons, List.map_cons, ih hnext, hfirst]

/-- A table that started without names has as many as there are different names among the calls that intern in it. -/
theorem size_internAll (calls : List (TableId × String)) (table : TableId)
    (hnodup : ((internAll (fun t => ⟨t, []⟩) calls).2 table).names.Nodup) :
    ((internAll (fun t => ⟨t, []⟩) calls).2 table).size = (namesOf calls table).toFinset.card := by
  have hnames : ((internAll (fun t => ⟨t, []⟩) calls).2 table).names.toFinset = (namesOf calls table).toFinset := by
    ext name
    simp [mem_names_internAll, mem_namesOf]
  rw [size, ← hnames, List.toFinset_card_of_nodup hnodup]

end KeywordTable

/-! ## Keywords as keys -/

open IndexedMap

/-- Whether two keys do the same in every map: they find the same, and a value that is bound to the one or to the other leads to
maps of one size in which every key finds the same, and which are the same. -/
def Key.Interchangeable (k k' : Key) : Prop :=
  ∀ m, Made m → m.get? k.toForm = m.get? k'.toForm ∧
    ∀ v, ∃ n n', m.assoc k.toForm v = .ok n ∧ m.assoc k'.toForm v = .ok n' ∧ n.size = n'.size ∧
      (∀ key, n.get? key = n'.get? key) ∧ n.same n' = true

/-- Keys with one index do the same in every map. -/
theorem interchangeable_of_index_eq {k k' : Key} (h : k.index = k'.index) : k.Interchangeable k' := by
  intro m hm
  obtain ⟨delims, pairs, rfl⟩ := hm.exists_ofPairs
  refine ⟨?_, fun v => ?_⟩
  · rw [get?_ofPairs_toForm, get?_ofPairs_toForm, h]
  · have hfound : ∀ index, Entries.get? (pairs ++ [(k, v)]) index = Entries.get? (pairs ++ [(k', v)]) index := by
      intro index
      simp only [Entries.get?_append, Entries.get?, h]
    have hindices : Entries.indices (pairs ++ [(k, v)]) = Entries.indices (pairs ++ [(k', v)]) := by
      simp only [Entries.indices, List.map_append, List.map_singleton, h]
    refine ⟨_, _, assoc_ofPairs_toForm delims pairs k v, assoc_ofPairs_toForm delims pairs k' v, ?_, ?_, ?_⟩
    · rw [(coherent_ofPairs _ _).size_eq, (coherent_ofPairs _ _).size_eq, ofPairs, ofPairs, keyTexts_alternate,
        keyTexts_alternate, hindices]
    · intro key
      rw [get?_ofPairs, get?_ofPairs]
      exact Option.bind_congr fun key _ => hfound key.index
    · refine same_ofPairs_iff.mpr fun key => ?_
      rw [hfound]
      cases Entries.get? (pairs ++ [(k', v)]) key.index with
      | none => exact .none
      | some a => exact .some BEq.rfl

/-! ## Whole runs -/

/-- Over every run of calls that intern names in any tables, whichever places are picked: each call gives a handle on its name, and
two handles refer to the same place exactly if they were given for the same name in the same table. So they do exactly if the
keywords of the calls are equal, which are their tables and names. Every table, in memory and as a keyword table, has as many
entries as there are different names among the calls for it, contains exactly these names, and is empty exactly if there were no
such calls. Keywords of one name are interchangeable as keys of maps, whatever their tables. -/
theorem interning_identifies (alloc : Allocator) (calls : List (TableId × String)) :
    let handles := (Heap.internAll {} alloc calls).1
    let heap := (Heap.internAll {} alloc calls).2
    let keywords := (KeywordTable.internAll (fun t => ⟨t, []⟩) calls).1
    let tables := (KeywordTable.internAll (fun t => ⟨t, []⟩) calls).2
    handles.length = calls.length ∧
      (∀ r ∈ calls.zip handles, r.2.name = r.1.2) ∧
      (∀ r ∈ calls.zip handles, ∀ r' ∈ calls.zip handles, (r.2.isSame r'.2 = true ↔ r.1 = r'.1)) ∧
      (∀ r ∈ keywords.zip handles, ∀ r' ∈ keywords.zip handles, (r.2.isSame r'.2 = true ↔ r.1 = r'.1)) ∧
      keywords = calls.map (fun c => ⟨c.1, c.2⟩) ∧
      (∀ t, heap.size t = (namesOf calls t).toFinset.card ∧ (tables t).size = (namesOf calls t).toFinset.card) ∧
      (∀ t name, (heap.contains t name = true ↔ (t, name) ∈ calls) ∧ ((tables t).contains name = true ↔ (t, name) ∈ calls)) ∧
      (∀ t, (heap.isEmpty t = true ↔ ∀ name, (t, name) ∉ calls) ∧ ((tables t).isEmpty = true ↔ ∀ name, (t, name) ∉ calls)) ∧
      ∀ name table table' token token',
        Key.Interchangeable (.keyword ⟨table, name⟩ token) (.keyword ⟨table', name⟩ token') := by
  intro handles heap keywords tables
  obtain ⟨hrep, hentries, -⟩ := Heap.represents_empty.internAll alloc calls
  obtain ⟨hlength, hentry⟩ := List.forall₂_iff_zip.mp hentries
  have hkeywords : keywords = calls.map fun c => ⟨c.1, c.2⟩ := KeywordTable.internAll_fst (fun _ => rfl) calls
  have hsame : ∀ r ∈ calls.zip handles, ∀ r' ∈ calls.zip handles, (r.2.isSame r'.2 = true ↔ r.1 = r'.1) :=
    fun r hr r' hr' => hrep.isSame_iff (hentry hr) (hentry hr')
  have hsize : ∀ t, (tables t).size = (namesOf calls t).toFinset.card := fun t =>
    KeywordTable.size_internAll calls t (hrep.nodup t)
  have hnames : ∀ t name, name ∈ (tables t).names ↔ (t, name) ∈ calls := by
    intro t name
    rw [KeywordTable.mem_names_internAll]
    simp
  have hcontains : ∀ t name, (tables t).contains name = true ↔ (t, name) ∈ calls := by
    intro t name
    rw [KeywordTable.contains, List.contains_iff_mem, hnames]
  have hempty : ∀ t, (tables t).isEmpty = true ↔ ∀ name, (t, name) ∉ calls := by
    intro t
    simp only [KeywordTable.isEmpty, List.isEmpty_iff, List.eq_nil_iff_forall_not_mem, hnames]
  refine ⟨hlength.symm, fun r hr => hrep.written r.1.1 _ (hentry hr), hsame, ?_, hkeywords, fun t => ⟨?_, hsize t⟩,
    fun t name => ⟨?_, hcontains t name⟩, fun t => ⟨?_, hempty t⟩, fun _ _ _ _ _ => interchangeable_of_index_eq rfl⟩
  · rw [hkeywords, List.zip_map_left]
    simp only [List.forall_mem_map, Prod.map_fst, Prod.map_snd, id_eq]
    intro r hr r' hr'
    rw [hsame r hr r' hr', Keyword.mk.injEq, Prod.ext_iff]
  · exact (hrep.size_eq t).trans (hsize t)
  · rw [hrep.contains_eq]
    exact hcontains t name
  · rw [hrep.isEmpty_eq]
    exact hempty t

/-- One name in two tables gives handles on two places, and interned again it gives the handle that was given first. -/
theorem interning_identifies_two_tables :
    let calls : List (TableId × String) := [(.shared, "a"), (.named "t", "a"), (.shared, "a")]
    ∃ g g' g'', (Heap.internAll {} .next calls).1 = [g, g', g''] ∧ g.isSame g'' = true ∧ g.isSame g' = false ∧
      g.name = g'.name ∧ (Heap.internAll {} .next calls).2.size .shared = 1 := by
  intro calls
  obtain ⟨hlength, hname, hsame, -, -, hsize, -, -, -⟩ := interning_identifies .next calls
  obtain ⟨g, g', g'', hhandles⟩ := List.length_eq_three.mp hlength
  simp only [hhandles, calls, List.zip_cons_cons, List.zip_nil_left, List.forall_mem_cons] at hname hsame
  obtain ⟨⟨-, hdiffer, hequal, -⟩, -⟩ := hsame
  refine ⟨g, g', g'', hhandles, hequal.mpr trivial, ?_, hname.1.trans hname.2.1.symm, (hsize .shared).1.trans (by decide)⟩
  rw [Bool.eq_false_iff]
  intro heq
  simpa using hdiffer.mp heq

end TinyLisp

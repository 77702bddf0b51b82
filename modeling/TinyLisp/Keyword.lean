/-!
# Keywords and the tables they are interned in

A keyword is a name interned in a table. All keywords of one name in one table are the same keyword, and keywords of
different tables are different whatever their names, so a keyword is its table and its name. One table is shared by every
reader; others are private.
-/

namespace TinyLisp

/-- A table of keywords: the one that is shared by all, or a private one. -/
inductive TableId where
  | shared
  | named (name : String)
  deriving DecidableEq, Repr

/-- A name interned in a table. -/
structure Keyword where
  table : TableId
  name : String
  deriving DecidableEq, Repr

/-- How a keyword is written: a colon and its name. -/
def Keyword.spell (k : Keyword) : List Char := ':' :: k.name.toList

/-- The number of different keywords in a list. -/
def Keyword.countDistinct (ks : List Keyword) : Nat := ks.eraseDups.length

/-- The names interned in a table so far, each once, in the order of their first interning. -/
structure KeywordTable where
  id : TableId
  names : List String := []
  deriving DecidableEq, Repr

namespace KeywordTable

/-- Whether a name has been interned in the table. -/
def contains (t : KeywordTable) (name : String) : Bool := t.names.contains name

/-- The number of names interned in the table. -/
def size (t : KeywordTable) : Nat := t.names.length

/-- Whether no name has been interned in the table. -/
def isEmpty (t : KeywordTable) : Bool := t.names.isEmpty

/-- The keyword of a name in the table, and the table that knows the name from then on. -/
def intern (t : KeywordTable) (name : String) : Keyword × KeywordTable :=
  (⟨t.id, name⟩, if t.contains name then t else { t with names := t.names ++ [name] })

/-- After interning, the table knows the name and the names it knew before. -/
theorem mem_names_intern {t : KeywordTable} {name other : String} :
    other ∈ (t.intern name).2.names ↔ other = name ∨ other ∈ t.names := by
  simp only [intern, contains, List.contains_eq_mem, decide_eq_true_eq]
  split <;> simp_all [or_comm]

/-- Interning keeps every name once. -/
theorem nodup_names_intern {t : KeywordTable} (h : t.names.Nodup) (name : String) : (t.intern name).2.names.Nodup := by
  simp only [intern, contains, List.contains_eq_mem, decide_eq_true_eq]
  split
  · exact h
  · next hn =>
    refine List.nodup_append.mpr ⟨h, by simp, fun a ha b hb => ?_⟩
    rintro rfl
    exact hn (List.mem_singleton.mp hb ▸ ha)

end KeywordTable

end TinyLisp

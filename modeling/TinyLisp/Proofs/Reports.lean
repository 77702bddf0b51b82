import TinyLisp.Proofs.Grammar

/-!
# What reports name

What a report of the reader names comes from the text: it is a token, or the spelling of a form that some of the tokens stand for.
`ReadError.Names` lists the reports with what each of them names, and `names_of_readText` says that there are no others. Like the
soundness of reading it goes through the pass: what the pass has read is derived by its state, and a state that refuses a token
names the token or a form that it has read.
-/

namespace TinyLisp

/-- The reports that tokens may lead to. A report about a key names a form that some of the tokens derive. -/
inductive ReadError.Names (ts : List Token) : ReadError → Prop where
  | nothing : Names ts .emptyInput
  | deep (limit : Nat) : Names ts (.tooDeep limit)
  | unclosed (shape : Shape) : Names ts (.mismatchedDelimiter shape none)
  | mismatched {t : Token} (ht : t ∈ ts) (shape : Shape) : Names ts (.mismatchedDelimiter shape (some t))
  | stray {t : Token} (ht : t ∈ ts) : Names ts (.unexpectedDelimiter t)
  | trailing {t : Token} (ht : t ∈ ts) : Names ts (.trailingInput t)
  | spoiled {t : Token} {e : ReadError} (ht : t ∈ ts) (h : readAtom t = .error e) : Names ts e
  | invalidKey {us : List Token} {f : Form} (hus : us ⊆ ts) (h : Derives us f) : Names ts (.invalidKey (f.print .readable))
  | unpaired {us : List Token} {k : Key} (hus : us ⊆ ts) (h : Derives us k.toForm) : Names ts k.unpaired

/-- More tokens may lead to more reports. -/
theorem ReadError.Names.mono {ts us : List Token} {e : ReadError} (h : e.Names ts) (hsub : ts ⊆ us) : e.Names us := by
  cases h with
  | nothing => exact .nothing
  | deep limit => exact .deep limit
  | unclosed shape => exact .unclosed shape
  | mismatched ht shape => exact .mismatched (hsub ht) shape
  | stray ht => exact .stray (hsub ht)
  | trailing ht => exact .trailing (hsub ht)
  | spoiled ht h => exact .spoiled (hsub ht) h
  | invalidKey hus h => exact .invalidKey (List.Subset.trans hus hsub) h
  | unpaired hus h => exact .unpaired (List.Subset.trans hus hsub) h

namespace Pass

/-- A key that waits for its value was read. -/
theorem Frame.Spells.exists_pending {allowed : Nat} {opening : Token} {pairs : List (Key × Form)} {k : Key} {us : List Token}
    (h : (Frame.map opening pairs (some k)).Spells allowed us) : ∃ ts, ts ⊆ us ∧ Derives ts k.toForm := by
  cases h with
  | pending _ _ _ hk =>
    refine ⟨_, ?_, hk⟩
    exact List.Subset.trans (List.subset_append_right _ _) (List.subset_cons_self _ _)

/-- A state that refuses a token names what was read. -/
theorem names_of_step {limit : Nat} {s : State} {us : List Token} {t : Token} {e : ReadError} (h : s.Spells limit us)
    (hs : step limit s t = .error e) : e.Names (us ++ [t]) := by
  have ht : t ∈ us ++ [t] := List.mem_append_right us List.mem_cons_self
  cases refuses_of_step hs with
  | trailing => exact .trailing ht
  | deep => exact .deep limit
  | stray => exact .stray ht
  | mismatched frame => exact .mismatched ht frame.shape
  | spoiled _ ha => exact .spoiled ht ha
  | atomKey _ hd ha =>
    exact .invalidKey (List.subset_append_right us [t]) (.atom (atom_iff.mpr ⟨Shape.not_isDelimiter_iff.mpr hd, ha⟩))
  | unpaired =>
    cases h with
    | reading h =>
      cases h with
      | cons _ _ hframe =>
        obtain ⟨ts, hts, hk⟩ := hframe.exists_pending
        exact .unpaired (List.Subset.trans hts (List.Subset.trans (List.subset_append_right _ _) (List.subset_append_left _ _))) hk
  | collectionKey _ htext hclose =>
    cases h with
    | reading h =>
      cases h with
      | cons _ _ hframe =>
        rw [List.append_assoc]
        exact .invalidKey (List.subset_append_right _ _) (hframe.close htext hclose).1

/-- A pass that fails names what was read. -/
theorem names_of_runFrom {limit : Nat} {s : State} {us ts : List Token} {e : ReadError} (h : s.Spells limit us)
    (hr : runFrom limit s ts = .error e) : e.Names (us ++ ts) := by
  induction ts generalizing s us with
  | nil =>
    cases h with
    | complete => cases hr
    | @reading stack =>
      rw [runFrom_nil, finish_reading] at hr
      cases hr
      cases stack with
      | nil => exact .nothing
      | cons frame outer => exact .unclosed frame.shape
  | cons t ts ih =>
    rw [List.append_cons]
    rw [runFrom_cons] at hr
    cases hs : step limit s t with
    | error e' =>
      rw [hs] at hr
      cases hr
      exact (names_of_step h hs).mono (List.subset_append_left _ _)
    | ok s' =>
      rw [hs] at hr
      exact ih (step_spells h hs) hr

end Pass

/-- A report of the reader names what stands in the text, comments left out. -/
theorem names_of_readText {limit : Nat} {source : String} {e : ReadError} (h : readText limit source = .error e) :
    e.Names (content (tokenize source)) := by
  rw [readText, Pass.readTokens_eq_run] at h
  exact Pass.names_of_runFrom (.reading .nil) h

end TinyLisp

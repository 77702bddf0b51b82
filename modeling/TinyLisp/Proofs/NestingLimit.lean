import Mathlib
import TinyLisp.Proofs.Grammar

/-!
# The limit of nesting

Two readers with different limits go over a text with the same steps. The one with the smaller limit may stop earlier, at the
first opening delimiter that is one too many for it, and has no other way to differ (`Pass.step_le`, `Pass.runFrom_le`).

`nesting_limit_exact` says what this means for the results. A form is read within every limit that its nesting does not exceed
and within no other, it is the same form each time, and a fault of another kind stays what it is unless the smaller limit is
exceeded before it is met.
-/

namespace TinyLisp

/-- A map is nested one deeper than its members, keys and replaced values included. -/
theorem nesting_map (delims : Delimiters) (pairs : List (Key × Form)) :
    (Form.map delims pairs).nesting = nestingOfMembers (alternate pairs) + 1 := by
  have hpairs : nestingOfValues pairs = nestingOfMembers (alternate pairs) := by
    induction pairs with
    | nil => rfl
    | cons p rest ih =>
      rw [alternate_cons, nestingOfMembers, nestingOfMembers, nestingOfValues, nesting_toForm, ih, Nat.zero_max]
  rw [Form.nesting, hpairs]

namespace Pass

variable {low high : Nat}

/-- With a smaller limit a step is the same, unless it opens a collection too many. -/
theorem step_le (h : low ≤ high) (s : State) (t : Token) :
    step low s t = step high s t ∨ step low s t = .error (.tooDeep low) := by
  cases s with
  | complete f => exact .inl rfl
  | reading stack =>
    cases ho : Shape.ofOpening? t.chars with
    | none =>
      left
      simp only [step, ho]
    | some shape =>
      rw [step_opening ho, step_opening ho]
      by_cases hlow : low ≤ stack.length
      · exact .inr (if_pos hlow)
      · have hhigh : ¬high ≤ stack.length := by omega
        left
        rw [if_neg hlow, if_neg hhigh]

/-- So a pass with a smaller limit gives the same, unless it meets a collection too many. -/
theorem runFrom_le (h : low ≤ high) (s : State) (ts : List Token) :
    runFrom low s ts = runFrom high s ts ∨ runFrom low s ts = .error (.tooDeep low) := by
  induction ts generalizing s with
  | nil => exact .inl rfl
  | cons t ts ih =>
    rw [runFrom_cons, runFrom_cons]
    rcases step_le h s t with hs | hs
    · rw [hs]
      cases step high s t with
      | error e => exact .inl rfl
      | ok s' => exact ih s'
    · right
      rw [hs]
      rfl

/-- A step that complains about a limit complains about its own. -/
theorem eq_limit_of_step {limit bound : Nat} {s : State} {t : Token} (h : step limit s t = .error (.tooDeep bound)) :
    bound = limit := by
  generalize he : ReadError.tooDeep bound = e at h
  cases refuses_of_step h with
  | deep => exact ReadError.tooDeep.inj he
  | spoiled _ ha =>
    cases readAtom_eq_error_iff.mp ha <;> cases he
  | _ => cases he

/-- So does a pass. -/
theorem eq_limit_of_runFrom {limit bound : Nat} {s : State} {ts : List Token}
    (h : runFrom limit s ts = .error (.tooDeep bound)) : bound = limit := by
  induction ts generalizing s with
  | nil =>
    rw [runFrom_nil] at h
    unfold State.finish at h
    split at h <;> cases h
  | cons t ts ih =>
    rw [runFrom_cons] at h
    cases hs : step limit s t with
    | error e =>
      rw [hs] at h
      cases h
      exact eq_limit_of_step hs
    | ok s' =>
      rw [hs] at h
      exact ih h

end Pass

/-- Reading with a smaller limit gives the same, unless more collections are open at once than it allows. -/
theorem readText_le {low high : Nat} (h : low ≤ high) (source : String) :
    readText low source = readText high source ∨ readText low source = .error (.tooDeep low) := by
  rw [readText, readText, Pass.readTokens_eq_run, Pass.readTokens_eq_run]
  exact Pass.runFrom_le h _ _

/-- A reader that complains about a limit complains about its own. -/
theorem eq_limit_of_readText {limit bound : Nat} {source : String} (h : readText limit source = .error (.tooDeep bound)) :
    bound = limit := by
  rw [readText, Pass.readTokens_eq_run] at h
  exact Pass.eq_limit_of_runFrom h

/-- Of two limits, what the larger one allows to read is read within the smaller one exactly if its nesting does not exceed that;
otherwise too many collections are open. What is read within the smaller one is read within the larger one. A fault met within the
larger one is met within the smaller one, too, unless too many collections are open before; so it always is if it is an excess
itself. The nesting of a map counts all its members, in the order in which they were added. -/
theorem nesting_limit_exact {low high : Nat} (h : low ≤ high) (source : String) :
    (∀ f, readText high source = .ok f →
        readText low source = if f.nesting ≤ low then .ok f else .error (.tooDeep low)) ∧
      (∀ f, readText low source = .ok f → readText high source = .ok f) ∧
      (∀ e, readText high source = .error e →
        (readText low source = .error e ∧ ∀ limit, e ≠ .tooDeep limit) ∨ readText low source = .error (.tooDeep low)) ∧
      ∀ delims pairs, (Form.map delims pairs).nesting = nestingOfMembers (alternate pairs) + 1 := by
  refine ⟨fun f hf => ?_, fun f hf => ?_, fun e he => ?_, nesting_map⟩
  · have hderives := (readTokens_eq_ok_iff.mp hf).1
    by_cases hn : f.nesting ≤ low
    · rw [if_pos hn]
      exact readTokens_eq_ok_iff.mpr ⟨hderives, hn⟩
    · rw [if_neg hn]
      rcases readText_le h source with heq | hdeep
      · rw [hf] at heq
        exact absurd (readTokens_eq_ok_iff.mp heq).2 hn
      · exact hdeep
  · obtain ⟨hderives, hn⟩ := readTokens_eq_ok_iff.mp hf
    exact readTokens_eq_ok_iff.mpr ⟨hderives, Nat.le_trans hn h⟩
  · rcases readText_le h source with heq | hdeep
    · rw [he] at heq
      by_cases hlow : e = .tooDeep low
      · exact .inr (hlow ▸ heq)
      · refine .inl ⟨heq, ?_⟩
        rintro limit rfl
        exact hlow (congrArg ReadError.tooDeep (eq_limit_of_readText heq))
    · exact .inr hdeep

/-- A vector counts for the nesting of a map though its value is replaced. -/
theorem nesting_limit_exact_replaced :
    1 ≤ 2 ∧ (∃ f, readText 2 "\x7b:a [] :a 1\x7d" = .ok f ∧ f.nesting = 2) ∧
      readText 1 "\x7b:a [] :a 1\x7d" = .error (.tooDeep 1) := by
  have hle : 1 ≤ 2 := by decide
  have hread : readText 2 "\x7b:a [] :a 1\x7d" = .ok (.map ⟨some ⟨"\x7b", 0⟩, some ⟨"\x7d", 11⟩⟩
      [(.keyword ⟨.shared, "a"⟩ (some ⟨":a", 1⟩), .seq .vector ⟨some ⟨"[", 4⟩, some ⟨"]", 5⟩⟩ []),
        (.keyword ⟨.shared, "a"⟩ (some ⟨":a", 7⟩), .int 1 (some ⟨"1", 10⟩))]) := by cbv
  exact ⟨hle, ⟨_, hread, rfl⟩, (nesting_limit_exact hle "\x7b:a [] :a 1\x7d").1 _ hread⟩

end TinyLisp

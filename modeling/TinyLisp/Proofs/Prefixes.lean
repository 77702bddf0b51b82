import TinyLisp.Proofs.Grammar

/-!
# What reading takes from the front of the tokens

A form is read from the front of the tokens, and those after it are left. The pass of `Proofs.Pass` goes over all tokens;
`Pass.scan` ends with the first form and returns what is left. `scan_start` says that this is what reading by descent does, and
so facts about reading become inductions on a list of tokens.

`scan_append` says that reading looks at nothing beyond the form, and `scan_spells` that what it takes ends with a token that
is no comment and derives the form.
-/

namespace TinyLisp

namespace Pass

/-- The pass over tokens, comments included, up to the end of the first form: the form and the tokens after it. -/
def scan (limit : Nat) : State → List Token → Except ReadError (Form × List Token)
  | .complete f, rest => .ok (f, rest)
  | .reading stack, [] => .error (fault stack)
  | .reading stack, t :: ts =>
    if t.isComment then scan limit (.reading stack) ts
    else (step limit (.reading stack) t).bind fun s => scan limit s ts

variable {limit : Nat}

@[simp] theorem scan_complete (f : Form) (ts : List Token) : scan limit (.complete f) ts = .ok (f, ts) := by
  cases ts <;> rfl

@[simp] theorem scan_nil (stack : List Frame) : scan limit (.reading stack) [] = .error (fault stack) := rfl

/-- A comment changes nothing while collections are open. -/
theorem scan_comment {t : Token} (h : t.isComment = true) (stack : List Frame) (ts : List Token) :
    scan limit (.reading stack) (t :: ts) = scan limit (.reading stack) ts := by
  rw [scan, if_pos h]

/-- Any other token makes a step. -/
theorem scan_step {t : Token} (h : t.isComment = false) (stack : List Frame) (ts : List Token) :
    scan limit (.reading stack) (t :: ts) = (step limit (.reading stack) t).bind fun s => scan limit s ts := by
  rw [scan, if_neg (by simp [h])]

/-- Comments at the front change nothing. -/
theorem scan_skipComments (stack : List Frame) (ts : List Token) :
    scan limit (.reading stack) (skipComments ts) = scan limit (.reading stack) ts := by
  induction ts with
  | nil => rfl
  | cons t ts ih =>
    cases hc : t.isComment with
    | true =>
      have hs : skipComments (t :: ts) = skipComments ts := by simp [skipComments, hc]
      rw [hs, scan_comment hc, ih]
    | false =>
      have hs : skipComments (t :: ts) = t :: ts := by simp [skipComments, hc]
      rw [hs]

/-- The pass that ends with the form does what the pass does until then. -/
theorem sweeps_scan (limit : Nat) : Sweeps limit (scan limit) where
  ends := by
    intro ts hs stack
    rw [← scan_skipComments, hs, scan_nil]
  steps := by
    intro ts rest t hs stack
    rw [← scan_skipComments, hs, scan_step (not_isComment_of_skipComments hs)]

/-- Reading a form by descent is passing over the tokens up to its end. -/
theorem scan_start (limit : Nat) (ts : List Token) :
    scan limit (.reading []) ts = (readForm limit 0 ts).map fun r => (r.1, r.2.1) := by
  rw [(sweeps_scan limit).form [] ts (by simp)]
  simp only [List.length_nil, deliver]
  rcases readForm limit 0 ts with e | ⟨f, rest, fewer⟩
  · rfl
  · simp [Except.bind, Except.map]

/-! ## Nothing beyond the form -/

/-- What was read is read whatever follows, and what follows is left. -/
theorem scan_append {s : State} {ts rest : List Token} {f : Form} (h : scan limit s ts = .ok (f, rest)) (us : List Token) :
    scan limit s (ts ++ us) = .ok (f, rest ++ us) := by
  induction ts generalizing s with
  | nil =>
    cases s with
    | complete g =>
      rw [scan_complete] at h ⊢
      cases h
      rfl
    | reading stack => cases h
  | cons t ts ih =>
    cases s with
    | complete g =>
      rw [scan_complete] at h ⊢
      cases h
      rfl
    | reading stack =>
      rw [List.cons_append]
      cases hc : t.isComment with
      | true =>
        rw [scan_comment hc] at h ⊢
        exact ih h
      | false =>
        rw [scan_step hc] at h ⊢
        cases hs : step limit (.reading stack) t with
        | error e => simp [hs, Except.bind] at h
        | ok s' =>
          rw [hs] at h
          exact ih h

/-- What is taken ends with a token that is no comment. Together with what was read before it derives the form, which is nested
within the limit. -/
theorem scan_spells {stack : List Frame} {vs ts rest : List Token} {f : Form} (hv : Opened limit stack vs)
    (h : scan limit (.reading stack) ts = .ok (f, rest)) :
    ∃ us t, ts = us ++ t :: rest ∧ t.isComment = false ∧ Derives (vs ++ content us ++ [t]) f ∧ f.nesting ≤ limit := by
  induction ts generalizing stack vs with
  | nil => cases h
  | cons t ts ih =>
    cases hc : t.isComment with
    | true =>
      rw [scan_comment hc] at h
      obtain ⟨us, u, rfl, hu, hd, hn⟩ := ih hv h
      exact ⟨t :: us, u, rfl, hu, by rwa [content_comment hc], hn⟩
    | false =>
      rw [scan_step hc] at h
      cases hs : step limit (.reading stack) t with
      | error e => simp [hs, Except.bind] at h
      | ok s =>
        rw [hs] at h
        have hspells := step_spells (.reading hv) hs
        cases hspells with
        | @complete g ws hd hn =>
          simp only [Except.bind, scan_complete] at h
          cases h
          exact ⟨[], t, rfl, hc, by simpa [content] using hd, hn⟩
        | @reading stack' ws hv' =>
          obtain ⟨us, u, rfl, hu, hd, hn⟩ := ih hv' h
          refine ⟨t :: us, u, rfl, hu, ?_, hn⟩
          rw [content_cons hc]
          simpa using hd

end Pass

/-- The form under a cursor is the first form of the tokens ahead, and the cursor after it has those ahead that are left. -/
theorem Cursor.read_eq_scan (limit : Nat) (c : Cursor) :
    c.read limit = (Pass.scan limit (.reading []) c.ahead).map fun r => (r.1, c.upTo r.2) := by
  rw [Pass.scan_start, Cursor.read]
  cases readForm limit 0 c.ahead <;> rfl

/-- A form is under a cursor exactly when it is the first form of the tokens ahead. -/
theorem Cursor.read_eq_ok_iff {limit : Nat} {c d : Cursor} {f : Form} :
    c.read limit = .ok (f, d) ↔ ∃ rest, Pass.scan limit (.reading []) c.ahead = .ok (f, rest) ∧ d = c.upTo rest := by
  rw [Cursor.read_eq_scan]
  rcases Pass.scan limit (.reading []) c.ahead with e | ⟨g, rest⟩
  · simp [Except.map]
  · simp [Except.map, and_assoc, eq_comm]

/-- A fault is met under a cursor exactly when it is met in the tokens ahead. -/
theorem Cursor.read_eq_error_iff {limit : Nat} {c : Cursor} {e : ReadError} :
    c.read limit = .error e ↔ Pass.scan limit (.reading []) c.ahead = .error e := by
  rw [Cursor.read_eq_scan]
  cases Pass.scan limit (.reading []) c.ahead <;> simp [Except.map]

end TinyLisp

import TinyLisp.Proofs.Lexing
import TinyLisp.Proofs.Prefixes

/-!
# Input that is incomplete and input that is wrong

Reading fails in two ways. Either a fault stands in the tokens read so far, and no tokens after them mend it; or the tokens end
too early, with nothing begun or with collections open. `incomplete_input_completable` tells the two apart by the report, and
says which inputs that end too early have a continuation that is read: those where no open collection stands in the place of a
key, since the form of a collection is no key.

The collections that are open where the tokens end are those of the pass (`Pass.openAt`). A continuation gives a value to a key
that waits for one and then closes the collections from the innermost one outwards.
-/

namespace TinyLisp

namespace Pass

/-- Whether an open collection takes a key next. -/
def Frame.awaitsKey : Frame → Bool
  | .map _ _ none => true
  | _ => false

/-- The collections that are open where the tokens end, the innermost one first. There are none after a complete form or a
fault. -/
def openAt (limit : Nat) (ts : List Token) : List Frame :=
  match (content ts).foldlM (step limit) (.reading []) with
  | .ok (.reading stack) => stack
  | _ => []

/-! ## Faults in the tokens -/

theorem isIncomplete_fault (stack : List Frame) : (fault stack).isIncomplete = true := by cases stack <;> rfl

/-- Where nothing was begun nothing is open. -/
theorem eq_nil_of_fault {stack : List Frame} (h : fault stack = .emptyInput) : stack = [] := by
  cases stack with
  | nil => rfl
  | cons frame outer => cases h

/-- A report that a collection is open at the end names the innermost one. -/
theorem shape_of_fault {stack : List Frame} {shape : Shape} (h : fault stack = .mismatchedDelimiter shape none) :
    stack.head?.map Frame.shape = some shape := by
  cases stack with
  | nil => cases h
  | cons frame outer =>
    cases h
    rfl

/-- A pass that fails either has met a fault in the tokens, which it meets whatever follows, or has come to the end of the
tokens with collections open, and then goes on with them in what follows. -/
theorem scan_append_of_error {limit : Nat} {s : State} {ts : List Token} {e : ReadError} (h : scan limit s ts = .error e) :
    (e.isIncomplete = false ∧ ∀ us, scan limit s (ts ++ us) = .error e) ∨
      ∃ stack, (content ts).foldlM (step limit) s = .ok (.reading stack) ∧ e = fault stack ∧
        ∀ us, scan limit s (ts ++ us) = scan limit (.reading stack) us := by
  induction ts generalizing s with
  | nil =>
    cases s with
    | complete f => simp at h
    | reading stack =>
      rw [scan_nil] at h
      cases h
      exact .inr ⟨stack, rfl, rfl, fun us => rfl⟩
  | cons t ts ih =>
    cases s with
    | complete f => simp at h
    | reading stack =>
      cases hc : t.isComment with
      | true =>
        rw [scan_comment hc] at h
        simp only [List.cons_append, scan_comment hc, content_comment hc]
        exact ih h
      | false =>
        rw [scan_step hc] at h
        simp only [List.cons_append, scan_step hc, content_cons hc, List.foldlM_cons]
        cases hs : step limit (.reading stack) t with
        | error e' =>
          rw [hs] at h
          cases h
          exact .inl ⟨isIncomplete_of_step hs, fun us => rfl⟩
        | ok s' =>
          rw [hs] at h
          exact ih h

/-- A report that the tokens end too early names the innermost of the collections that are open there, and the pass goes on
with them in what follows. -/
theorem openAt_of_scan_error {limit : Nat} {ts : List Token} {e : ReadError} (h : scan limit (.reading []) ts = .error e)
    (hi : e.isIncomplete = true) :
    e = fault (openAt limit ts) ∧
      ∀ us, scan limit (.reading []) (ts ++ us) = scan limit (.reading (openAt limit ts)) us := by
  rcases scan_append_of_error h with ⟨hf, -⟩ | ⟨stack, hs, rfl, hus⟩
  · rw [hf] at hi
    cases hi
  · have hopen : openAt limit ts = stack := by rw [openAt, hs]
    rw [hopen]
    exact ⟨rfl, hus⟩

/-! ## A collection in the place of a key -/

/-- A collection that stands in the place of a key never becomes a key: no step closes it, as long as it is there. -/
theorem awaitsKey_of_step {limit : Nat} {stack : List Frame} {s : State} {t : Token}
    (hk : ∃ frame ∈ stack.tail, frame.awaitsKey = true) (h : step limit (.reading stack) t = .ok s) :
    ∃ stack', s = .reading stack' ∧ ∃ frame ∈ stack'.tail, frame.awaitsKey = true := by
  obtain ⟨frame, hmem, hk⟩ := hk
  cases stack with
  | nil => cases hmem
  | cons inner outer =>
    rw [List.tail_cons] at hmem
    rcases step_ok_cases h with ⟨shape, -, -, rfl⟩ | ⟨f, -, -, hd⟩ | ⟨_, _, f, heq, -, hclose, hd⟩
    · exact ⟨_, rfl, frame, List.mem_cons_of_mem _ hmem, hk⟩
    · obtain ⟨inner', -, rfl⟩ := exists_of_deliver_cons hd
      exact ⟨_, rfl, frame, hmem, hk⟩
    · cases heq
      cases outer with
      | nil => cases hmem
      | cons next outer =>
        obtain ⟨next', hadd, rfl⟩ := exists_of_deliver_cons hd
        refine ⟨_, rfl, frame, ?_, hk⟩
        rcases List.mem_cons.mp hmem with rfl | hmem
        · -- The collection that takes a key next would have to take the one that was closed.
          have hf : f.asKey? = none := by
            unfold Frame.close at hclose
            split at hclose <;> cases hclose <;> rfl
          unfold Frame.awaitsKey at hk
          split at hk
          · simp [Frame.add_key, Form.toKey, hf, Except.map] at hadd
          · cases hk
        · exact hmem

/-- While a collection stands in the place of a key no form becomes complete. -/
theorem scan_ne_ok_of_awaitsKey {limit : Nat} {stack : List Frame} (hk : ∃ frame ∈ stack.tail, frame.awaitsKey = true)
    (ts : List Token) (r : Form × List Token) : scan limit (.reading stack) ts ≠ .ok r := by
  induction ts generalizing stack with
  | nil => simp
  | cons t ts ih =>
    cases hc : t.isComment with
    | true =>
      rw [scan_comment hc]
      exact ih hk
    | false =>
      rw [scan_step hc]
      cases hs : step limit (.reading stack) t with
      | error e => simp [Except.bind]
      | ok s =>
        obtain ⟨stack', rfl, hk'⟩ := awaitsKey_of_step hk hs
        exact ih hk'

/-! ## Closing what is open -/

/-- The token that closes an open collection. -/
def Frame.closer (frame : Frame) : Token := ⟨String.ofList [frame.shape.closing], 0⟩

theorem Frame.chars_closer (frame : Frame) : frame.closer.chars = [frame.shape.closing] := String.toList_ofList

theorem Frame.not_isComment_closer (frame : Frame) : frame.closer.isComment = false :=
  Lexer.not_isComment_of_isDelimiter ⟨frame.shape, .inr frame.chars_closer⟩

/-- A collection that takes no key next takes any form, and can be closed then. -/
theorem Frame.exists_add {frame : Frame} (h : frame.awaitsKey = false) (f : Form) (t : Token) :
    ∃ frame' g, frame.add f = .ok frame' ∧ frame'.shape = frame.shape ∧ frame'.close t = .ok g := by
  rcases frame with ⟨kind, opening, members⟩ | ⟨opening, pairs, _ | k⟩
  · exact ⟨_, _, rfl, rfl, rfl⟩
  · cases h
  · exact ⟨_, _, rfl, rfl, rfl⟩

/-- The closing delimiter of the innermost open collection closes it, if it can be closed. -/
theorem scan_closer {limit : Nat} {frame : Frame} {t : Token} {g : Form} (ht : t.chars = [frame.shape.closing])
    (hc : t.isComment = false) (h : frame.close t = .ok g) (outer : List Frame) (ts : List Token) :
    scan limit (.reading (frame :: outer)) (t :: ts) = (deliver g outer).bind fun s => scan limit s ts := by
  rw [scan_step hc, step_close ht, h]
  rfl

/-- A form that is handed to open collections, none of which takes a key next, becomes a part of a complete form when they are
closed one after the other. -/
theorem exists_scan_closers (limit : Nat) {stack : List Frame} (h : ∀ frame ∈ stack, frame.awaitsKey = false) (f : Form) :
    ∃ g, ((deliver f stack).bind fun s => scan limit s (stack.map Frame.closer)) = .ok (g, []) := by
  induction stack generalizing f with
  | nil => exact ⟨f, rfl⟩
  | cons frame outer ih =>
    obtain ⟨hframe, houter⟩ := List.forall_mem_cons.mp h
    obtain ⟨frame', g, hadd, hshape, hclose⟩ := Frame.exists_add hframe f frame.closer
    obtain ⟨whole, hwhole⟩ := ih houter g
    refine ⟨whole, ?_⟩
    rw [deliver_cons hadd, List.map_cons]
    have hchars : frame.closer.chars = [frame'.shape.closing] := by rw [hshape, frame.chars_closer]
    rw [Except.bind, scan_closer hchars frame.not_isComment_closer hclose]
    exact hwhole

/-- Open collections, none of which stands in the place of a key, can be closed. Where nothing is open a form can be read. -/
theorem exists_scan_ok (limit : Nat) {stack : List Frame} (h : ∀ frame ∈ stack.tail, frame.awaitsKey = false) :
    ∃ ts g, scan limit (.reading stack) ts = .ok (g, []) := by
  by_cases hall : ∀ frame ∈ stack, frame.awaitsKey = false
  · obtain ⟨g, hg⟩ := exists_scan_closers limit hall (.bool true)
    have ho : Shape.ofOpening? (⟨"true", 0⟩ : Token).chars = none := rfl
    have hc : Shape.ofClosing? (⟨"true", 0⟩ : Token).chars = none := rfl
    refine ⟨⟨"true", 0⟩ :: stack.map Frame.closer, g, ?_⟩
    rw [scan_step rfl, step_atom ho hc]
    exact hg
  · -- Only the innermost collection takes a key next: it is closed before one comes.
    cases stack with
    | nil => exact absurd nofun hall
    | cons frame outer =>
      have hframe : frame.awaitsKey = true := by
        by_contra hne
        exact hall (List.forall_mem_cons.mpr ⟨by simpa using hne, h⟩)
      obtain ⟨g, hclose⟩ : ∃ g, frame.close frame.closer = .ok g := by
        rcases frame with _ | ⟨opening, pairs, _ | k⟩
        · cases hframe
        · exact ⟨_, rfl⟩
        · cases hframe
      obtain ⟨whole, hwhole⟩ := exists_scan_closers limit h g
      refine ⟨frame.closer :: outer.map Frame.closer, whole, ?_⟩
      rw [scan_closer frame.chars_closer frame.not_isComment_closer hclose]
      exact hwhole

end Pass

/-! ## More tokens -/

/-- What a cursor at the start of the tokens has read, it has read whatever follows. A fault in the tokens stays the same
whatever follows. Where nothing was begun a continuation is read. Where a collection is left open, the report names the
innermost one, and a continuation is read exactly when no open collection stands in the place of a key. -/
theorem incomplete_input_completable (limit : Nat) (ts : List Token) :
    (∀ f c, (Cursor.start ts).read limit = .ok (f, c) →
        ∀ us, (Cursor.start (ts ++ us)).read limit = .ok (f, ⟨c.index, c.ahead ++ us⟩)) ∧
      (∀ e, (Cursor.start ts).read limit = .error e → e.isIncomplete = false →
        ∀ us, (Cursor.start (ts ++ us)).read limit = .error e) ∧
      ((Cursor.start ts).read limit = .error .emptyInput →
        ∃ us f c, (Cursor.start (ts ++ us)).read limit = .ok (f, c)) ∧
      ∀ shape, (Cursor.start ts).read limit = .error (.mismatchedDelimiter shape none) →
        (Pass.openAt limit ts).head?.map Pass.Frame.shape = some shape ∧
          ((∃ us f c, (Cursor.start (ts ++ us)).read limit = .ok (f, c)) ↔
            ∀ frame ∈ (Pass.openAt limit ts).tail, frame.awaitsKey = false) := by
  have exists_ok : ∀ us, (∃ f c, (Cursor.start (ts ++ us)).read limit = .ok (f, c)) ↔
      ∃ r, Pass.scan limit (.reading []) (ts ++ us) = .ok r := by
    intro us
    simp only [Cursor.read_eq_ok_iff, Prod.exists]
    exact ⟨fun ⟨f, _, rest, h, _⟩ => ⟨f, rest, h⟩, fun ⟨f, rest, h⟩ => ⟨f, _, rest, h, rfl⟩⟩
  refine ⟨?_, ?_, ?_, ?_⟩
  · intro f c h us
    obtain ⟨rest, hscan, rfl⟩ := Cursor.read_eq_ok_iff.mp h
    refine Cursor.read_eq_ok_iff.mpr ⟨rest ++ us, Pass.scan_append hscan us, ?_⟩
    have hlen : ts.length + us.length - (rest.length + us.length) = ts.length - rest.length := by omega
    simp [Cursor.start, Cursor.upTo, hlen]
  · intro e he hi us
    rcases Pass.scan_append_of_error (Cursor.read_eq_error_iff.mp he) with ⟨-, hus⟩ | ⟨stack, -, rfl, -⟩
    · exact Cursor.read_eq_error_iff.mpr (hus us)
    · rw [Pass.isIncomplete_fault] at hi
      cases hi
  · intro he
    obtain ⟨hfault, hus⟩ := Pass.openAt_of_scan_error (Cursor.read_eq_error_iff.mp he) rfl
    have hopen : Pass.openAt limit ts = [] := Pass.eq_nil_of_fault hfault.symm
    have hnone : ∀ frame ∈ ([] : List Pass.Frame).tail, frame.awaitsKey = false := nofun
    obtain ⟨us, g, hg⟩ := Pass.exists_scan_ok limit hnone
    exact ⟨us, (exists_ok us).mpr ⟨_, (hus us).trans (hopen ▸ hg)⟩⟩
  · intro shape he
    obtain ⟨hfault, hus⟩ := Pass.openAt_of_scan_error (Cursor.read_eq_error_iff.mp he) rfl
    refine ⟨Pass.shape_of_fault hfault.symm, ?_, ?_⟩
    · rintro ⟨us, hok⟩ frame hmem
      obtain ⟨r, hr⟩ := (exists_ok us).mp hok
      have hscan := (hus us).symm.trans hr
      by_contra hne
      exact Pass.scan_ne_ok_of_awaitsKey ⟨frame, hmem, by simpa using hne⟩ us r hscan
    · intro h
      obtain ⟨us, g, hg⟩ := Pass.exists_scan_ok limit h
      exact ⟨us, (exists_ok us).mpr ⟨_, (hus us).trans hg⟩⟩

/-- At a limit of two, a keyword is read whatever follows, a lone closing delimiter is a fault whatever follows, and comments
alone have a continuation that is read. So has a vector in the place of a value, as deep as the limit allows. A list in the
place of a key has none. -/
theorem open_vector_completable :
    (∀ us, ∃ f c, (Cursor.start ([⟨":a", 0⟩] ++ us)).read 2 = .ok (f, c)) ∧
      (∀ us, (Cursor.start ([⟨")", 0⟩] ++ us)).read 2 = .error (.unexpectedDelimiter ⟨")", 0⟩)) ∧
      (∃ us f c, (Cursor.start ([⟨";", 0⟩] ++ us)).read 2 = .ok (f, c)) ∧
      (∃ us f c, (Cursor.start ([⟨"\x7b", 0⟩, ⟨":a", 1⟩, ⟨"[", 4⟩] ++ us)).read 2 = .ok (f, c)) ∧
      ¬∃ us f c, (Cursor.start ([⟨"\x7b", 0⟩, ⟨"(", 1⟩] ++ us)).read 2 = .ok (f, c) := by
  have hkeyword : (Cursor.start [⟨":a", 0⟩]).read 2 = .ok (.keyword ⟨.shared, "a"⟩ (some ⟨":a", 0⟩), ⟨1, []⟩) :=
    Cursor.read_eq_ok_iff.mpr ⟨[], rfl, rfl⟩
  have hstray : (Cursor.start [⟨")", 0⟩]).read 2 = .error (.unexpectedDelimiter ⟨")", 0⟩) :=
    Cursor.read_eq_error_iff.mpr rfl
  have hempty : (Cursor.start [⟨";", 0⟩]).read 2 = .error .emptyInput := Cursor.read_eq_error_iff.mpr rfl
  have hvalue : (Cursor.start [⟨"\x7b", 0⟩, ⟨":a", 1⟩, ⟨"[", 4⟩]).read 2 =
      .error (.mismatchedDelimiter (.seq .vector) none) := Cursor.read_eq_error_iff.mpr rfl
  have hkey : (Cursor.start [⟨"\x7b", 0⟩, ⟨"(", 1⟩]).read 2 = .error (.mismatchedDelimiter (.seq .list) none) :=
    Cursor.read_eq_error_iff.mpr rfl
  refine ⟨?_, ?_, ?_, ?_, ?_⟩
  · intro us
    exact ⟨_, _, (incomplete_input_completable 2 _).1 _ _ hkeyword us⟩
  · exact (incomplete_input_completable 2 _).2.1 _ hstray rfl
  · exact (incomplete_input_completable 2 _).2.2.1 hempty
  · refine ((incomplete_input_completable 2 _).2.2.2 _ hvalue).2.mpr ?_
    decide
  · rw [((incomplete_input_completable 2 _).2.2.2 _ hkey).2]
    decide

end TinyLisp

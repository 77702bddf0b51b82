import TinyLisp.Proofs.Atoms

/-!
# Reading in one pass

The reader descends into a collection and comes back with it. The same can be said without descending: one pass over the
tokens that are no comments, from left to right, with a stack of the collections that are open. `Pass.step` says what one
token does to the stack, and which fault it is; `step_ok_cases` takes a step apart that is no fault. `readTokens_eq_run` says
that both ways of reading give the same form or the same fault, so the reader reports the leftmost fault there is. The induction
is on the tokens: the descent into a form, into members and into pairs each agree with the pass that goes on from a stack
(`Sweeps.form`, `Sweeps.members`, `Sweeps.pairs`). They leave open what becomes of a form that is complete, so they serve for a
pass over all tokens and for one that ends with the form.
-/

namespace TinyLisp

/-- The tokens that are no comments. -/
def content (ts : List Token) : List Token := ts.filter (!·.isComment)

/-- A comment does not belong to the content. -/
theorem content_comment {t : Token} (h : t.isComment = true) (ts : List Token) : content (t :: ts) = content ts :=
  List.filter_cons_of_neg (by simp [h])

/-- Any other token does. -/
theorem content_cons {t : Token} (h : t.isComment = false) (ts : List Token) : content (t :: ts) = t :: content ts :=
  List.filter_cons_of_pos (by simp [h])

/-- The content of tokens in a row is that of one after the other. -/
theorem content_append (ts us : List Token) : content (ts ++ us) = content ts ++ content us := List.filter_append ts us

/-- Comments at the front do not belong to the content. -/
theorem content_skipComments (ts : List Token) : content (skipComments ts) = content ts := by
  induction ts with
  | nil => rfl
  | cons t ts ih => cases h : t.isComment <;> simp_all [content, skipComments]

/-- Where only comments are left there is no content. -/
theorem content_of_skipComments_nil {ts : List Token} (h : skipComments ts = []) : content ts = [] := by
  rw [← content_skipComments, h]
  rfl

/-- The first token after the comments is the first of the content. -/
theorem content_of_skipComments_cons {ts rest : List Token} {t : Token} (h : skipComments ts = t :: rest) :
    content ts = t :: content rest := by
  rw [← content_skipComments, h, content_cons (not_isComment_of_skipComments h)]

/-- Whether the report says that the tokens end too early. -/
def ReadError.isIncomplete : ReadError → Bool
  | .emptyInput => true
  | .mismatchedDelimiter _ none => true
  | _ => false

namespace Pass

/-! ## The pass -/

/-- An open collection: its opening delimiter and what has been read of it. A map may have a key that waits for its value;
then the number of its members is odd. -/
inductive Frame where
  | seq (kind : SeqKind) (opening : Token) (members : List Form)
  | map (opening : Token) (pairs : List (Key × Form)) (pending : Option Key)

namespace Frame

/-- The shape of an open collection. -/
def shape : Frame → Shape
  | .seq kind _ _ => .seq kind
  | .map _ _ _ => .map

/-- A collection that was just opened. -/
def start (opening : Token) : Shape → Frame
  | .seq kind => .seq kind opening []
  | .map => .map opening [] none

/-- The collection with one more member. In the place of a key only a string or a keyword is accepted. -/
def add (f : Form) : Frame → Except ReadError Frame
  | .seq kind opening members => .ok (.seq kind opening (members ++ [f]))
  | .map opening pairs none =>
    match f with
    | .str value token => .ok (.map opening pairs (some (.str value token)))
    | .keyword k token => .ok (.map opening pairs (some (.keyword k token)))
    | f => .error (.invalidKey (f.print .readable))
  | .map opening pairs (some k) => .ok (.map opening (pairs ++ [(k, f)]) none)

/-- The form of the collection when it is closed. A key that waits for its value is a fault. -/
def close (closing : Token) : Frame → Except ReadError Form
  | .seq kind opening members => .ok (.seq kind ⟨some opening, some closing⟩ members)
  | .map opening pairs none => .ok (.map ⟨some opening, some closing⟩ pairs)
  | .map _ _ (some k) => .error (.unpairedKey (k.toForm.print .readable))

/-- What is accepted in the place of a key is the key that a form is. -/
theorem add_key (opening : Token) (pairs : List (Key × Form)) (f : Form) :
    (Frame.map opening pairs none).add f = f.toKey.map fun k => .map opening pairs (some k) := by
  cases f <;> rfl

end Frame

/-- How far a pass has come: some collections are open, the innermost one first, or the form is complete. -/
inductive State where
  | reading (stack : List Frame)
  | complete (form : Form)

/-- Hands a form that was read to the innermost open collection. Where none is open it is the form asked for. -/
def deliver (f : Form) : List Frame → Except ReadError State
  | [] => .ok (.complete f)
  | frame :: outer => (frame.add f).map fun frame => .reading (frame :: outer)

/-- What one token does. An opening delimiter opens a collection, unless as many are open as the limit allows. A closing
delimiter closes the innermost one, if there is one and it has this shape. Any other token is an atom. After the form is
complete no token may come. -/
def step (limit : Nat) : State → Token → Except ReadError State
  | .complete _, t => .error (.trailingInput t)
  | .reading stack, t =>
    match Shape.ofOpening? t.chars with
    | some shape =>
      if limit ≤ stack.length then .error (.tooDeep limit) else .ok (.reading (Frame.start t shape :: stack))
    | none =>
      match Shape.ofClosing? t.chars with
      | none => (readAtom t).bind fun f => deliver f stack
      | some shape =>
        match stack with
        | [] => .error (.unexpectedDelimiter t)
        | frame :: outer =>
          if shape = frame.shape then (frame.close t).bind fun f => deliver f outer
          else .error (.mismatchedDelimiter frame.shape (some t))

/-- What the end of the input makes of a state: the form, if it is complete; otherwise nothing was begun or the innermost
collection is not closed. -/
def State.finish : State → Except ReadError Form
  | .complete f => .ok f
  | .reading [] => .error .emptyInput
  | .reading (frame :: _) => .error (.mismatchedDelimiter frame.shape none)

/-- The pass over the tokens to come, from a state on. -/
def runFrom (limit : Nat) (s : State) (ts : List Token) : Except ReadError Form :=
  (ts.foldlM (step limit) s).bind State.finish

/-- The pass over all tokens. -/
def run (limit : Nat) (ts : List Token) : Except ReadError Form := runFrom limit (.reading []) ts

@[simp] theorem runFrom_nil (limit : Nat) (s : State) : runFrom limit s [] = s.finish := rfl

/-- A pass makes its first step and goes on from there. -/
@[simp] theorem runFrom_cons (limit : Nat) (s : State) (t : Token) (ts : List Token) :
    runFrom limit s (t :: ts) = (step limit s t).bind fun s => runFrom limit s ts := by
  unfold runFrom
  rw [List.foldlM_cons]
  cases step limit s t <;> rfl

/-! ## Single steps -/

/-- A closing delimiter opens nothing. -/
theorem ofOpening?_of_ofClosing? {cs : List Char} {s : Shape} (h : Shape.ofClosing? cs = some s) :
    Shape.ofOpening? cs = none := by
  rw [Shape.eq_of_ofClosing? h]
  rcases s with (_ | _) | _ <;> rfl

/-- The step at an opening delimiter. -/
theorem step_opening {t : Token} {shape : Shape} (h : Shape.ofOpening? t.chars = some shape) (limit : Nat)
    (stack : List Frame) :
    step limit (.reading stack) t =
      if limit ≤ stack.length then .error (.tooDeep limit) else .ok (.reading (Frame.start t shape :: stack)) := by
  simp [step, h]

/-- The step at a closing delimiter while a collection is open. -/
theorem step_closing {t : Token} {shape : Shape} (h : Shape.ofClosing? t.chars = some shape) (limit : Nat)
    (frame : Frame) (outer : List Frame) :
    step limit (.reading (frame :: outer)) t =
      if shape = frame.shape then (frame.close t).bind fun f => deliver f outer
      else .error (.mismatchedDelimiter frame.shape (some t)) := by
  simp [step, h, ofOpening?_of_ofClosing? h]

/-- The step at the closing delimiter of the innermost open collection. -/
theorem step_close {t : Token} {frame : Frame} (h : t.chars = [frame.shape.closing]) (limit : Nat) (outer : List Frame) :
    step limit (.reading (frame :: outer)) t = (frame.close t).bind fun f => deliver f outer := by
  rw [step_closing (h ▸ Shape.ofClosing?_closing frame.shape), if_pos rfl]

/-- The step at a closing delimiter while nothing is open. -/
theorem step_stray {t : Token} {shape : Shape} (h : Shape.ofClosing? t.chars = some shape) (limit : Nat) :
    step limit (.reading []) t = .error (.unexpectedDelimiter t) := by
  simp [step, h, ofOpening?_of_ofClosing? h]

/-- The step at a token that is no delimiter. -/
theorem step_atom {t : Token} (ho : Shape.ofOpening? t.chars = none) (hc : Shape.ofClosing? t.chars = none)
    (limit : Nat) (stack : List Frame) :
    step limit (.reading stack) t = (readAtom t).bind fun f => deliver f stack := by
  simp [step, ho, hc]

/-- An open collection that takes the form goes on with it. -/
theorem deliver_cons {frame frame' : Frame} {f : Form} (h : frame.add f = .ok frame') (outer : List Frame) :
    deliver f (frame :: outer) = .ok (.reading (frame' :: outer)) := by
  simp [deliver, h, Except.map]

/-- What is open after a form was handed on is the collection that took it. -/
theorem exists_of_deliver_cons {frame : Frame} {outer : List Frame} {f : Form} {s : State}
    (h : deliver f (frame :: outer) = .ok s) : ∃ frame', frame.add f = .ok frame' ∧ s = .reading (frame' :: outer) := by
  rw [deliver] at h
  cases hadd : frame.add f with
  | error e => simp [hadd, Except.map] at h
  | ok frame' =>
    rw [hadd] at h
    cases h
    exact ⟨frame', rfl, rfl⟩

/-- A step from open collections that is no fault opens a collection, hands on an atom, or closes the innermost collection and
hands that on. -/
theorem step_ok_cases {limit : Nat} {stack : List Frame} {t : Token} {s : State} (h : step limit (.reading stack) t = .ok s) :
    (∃ shape, t.chars = [shape.opening] ∧ stack.length < limit ∧ s = .reading (Frame.start t shape :: stack)) ∨
      (∃ f, (Shape.ofOpening? t.chars = none ∧ Shape.ofClosing? t.chars = none) ∧ readAtom t = .ok f ∧
        deliver f stack = .ok s) ∨
      ∃ frame outer f, stack = frame :: outer ∧ t.chars = [frame.shape.closing] ∧ frame.close t = .ok f ∧
        deliver f outer = .ok s := by
  cases ho : Shape.ofOpening? t.chars with
  | some shape =>
    rw [step_opening ho] at h
    split at h
    · cases h
    · next hlt =>
      cases h
      exact .inl ⟨shape, Shape.eq_of_ofOpening? ho, Nat.lt_of_not_le hlt, rfl⟩
  | none =>
    cases hc : Shape.ofClosing? t.chars with
    | none =>
      rw [step_atom ho hc] at h
      cases ha : readAtom t with
      | error e => simp [ha, Except.bind] at h
      | ok f =>
        rw [ha] at h
        exact .inr (.inl ⟨f, ⟨rfl, rfl⟩, rfl, h⟩)
    | some shape =>
      cases stack with
      | nil =>
        rw [step_stray hc] at h
        cases h
      | cons frame outer =>
        rw [step_closing hc] at h
        split at h
        · next heq =>
          cases hclose : frame.close t with
          | error e => simp [hclose, Except.bind] at h
          | ok f =>
            rw [hclose] at h
            exact .inr (.inr ⟨frame, outer, f, rfl, heq ▸ Shape.eq_of_ofClosing? hc, hclose, h⟩)
        · cases h

/-! ## The descent agrees with the pass -/

/-- The fault of an input that ends while these collections are open: nothing was begun, or the innermost one is not closed. -/
def fault : List Frame → ReadError
  | [] => .emptyInput
  | frame :: _ => .mismatchedDelimiter frame.shape none

theorem finish_reading (stack : List Frame) : (State.reading stack).finish = .error (fault stack) := by cases stack <;> rfl

/-- A way of going over tokens, comments included, that does what the pass does until the form is complete: a step for every
token that is no comment, and the fault of the open collections where no such token is left. What it does with a complete form
is left open. -/
structure Sweeps {α : Type} (limit : Nat) (go : State → List Token → Except ReadError α) : Prop where
  ends : ∀ {ts : List Token}, skipComments ts = [] → ∀ stack, go (.reading stack) ts = .error (fault stack)
  steps : ∀ {ts rest : List Token} {t : Token}, skipComments ts = t :: rest → ∀ stack,
    go (.reading stack) ts = (step limit (.reading stack) t).bind fun s => go s rest

/-- Where the descent sees a member, a token stands that closes nothing. -/
theorem exists_of_nextInside_none {shape : Shape} {ts : List Token} (h : nextInside shape ts = .ok none) :
    ∃ t rest, skipComments ts = t :: rest ∧ Shape.ofClosing? t.chars = none := by
  unfold nextInside at h
  split at h
  · cases h
  · next t rest hs =>
    split at h
    · next hc => exact ⟨t, rest, hs, hc⟩
    · split at h <;> cases h

namespace Sweeps

variable {α : Type} {limit : Nat} {go : State → List Token → Except ReadError α}

/-- A fault that the descent sees inside a collection is the fault of the pass. -/
theorem of_nextInside_error (hg : Sweeps limit go) (frame : Frame) {ts : List Token} {e : ReadError}
    (h : nextInside frame.shape ts = .error e) (outer : List Frame) : go (.reading (frame :: outer)) ts = .error e := by
  unfold nextInside at h
  split at h
  · next hs =>
    cases h
    exact hg.ends hs _
  · next t rest hs =>
    split at h
    · cases h
    · next closed hc =>
      split at h
      · cases h
      · next hne =>
        cases h
        rw [hg.steps hs, step_closing hc, if_neg hne]
        rfl

/-- Where the descent sees the end of a collection, the pass closes it. -/
theorem of_nextInside_some (hg : Sweeps limit go) (frame : Frame) {ts : List Token} {t : Token} {rest : Fewer ts}
    (h : nextInside frame.shape ts = .ok (some (t, rest))) (outer : List Frame) :
    go (.reading (frame :: outer)) ts =
      (frame.close t).bind fun f => (deliver f outer).bind fun s => go s rest.1 := by
  unfold nextInside at h
  split at h
  · cases h
  · next t rest hs =>
    split at h
    · cases h
    · next closed hc =>
      split at h
      · next he =>
        cases h
        rw [hg.steps hs, step_closing hc, if_pos he]
        cases frame.close t <;> rfl
      · cases h

mutual

/-- Reading a form by descent is passing over it. Inside a collection this is asked only where a member stands. -/
theorem form (hg : Sweeps limit go) (stack : List Frame) (ts : List Token)
    (h : ∀ frame ∈ stack.head?, nextInside frame.shape ts = .ok none) :
    go (.reading stack) ts =
      (readForm limit stack.length ts).bind fun r => (deliver r.1 stack).bind fun s => go s r.2.1 := by
  rw [readForm]
  split
  · next hs =>
    cases stack with
    | nil => rw [hg.ends hs]; rfl
    | cons frame outer =>
      obtain ⟨t, rest, hs', -⟩ := exists_of_nextInside_none (h frame rfl)
      simp [hs] at hs'
  · next t rest hs =>
    have hlt : rest.length < ts.length := by
      have := length_skipComments_le ts
      simp only [hs, List.length_cons] at this
      omega
    rw [hg.steps hs]
    split
    · next kind ho =>
      rw [step_opening ho]
      split
      · rfl
      · rw [Except.bind, Frame.start, hg.members kind t [] stack rest]
        cases readMembers limit (stack.length + 1) kind rest <;> rfl
    · next ho =>
      rw [step_opening ho]
      split
      · rfl
      · rw [Except.bind, Frame.start, hg.pairs t [] stack rest]
        cases readPairs limit (stack.length + 1) rest <;> rfl
    · next ho =>
      cases hc : Shape.ofClosing? t.chars with
      | none =>
        rw [step_atom ho hc]
        cases readAtom t <;> rfl
      | some shape =>
        cases stack with
        | nil => rw [step_stray hc]; rfl
        | cons frame outer =>
          obtain ⟨t', rest', hs', hc'⟩ := exists_of_nextInside_none (h frame rfl)
          rw [hs] at hs'
          cases hs'
          rw [hc] at hc'
          cases hc'
  termination_by (ts.length, 0)

/-- Reading the rest of a sequence by descent is passing over it. -/
theorem members (hg : Sweeps limit go) (kind : SeqKind) (opening : Token) (ms : List Form) (outer : List Frame)
    (ts : List Token) :
    go (.reading (.seq kind opening ms :: outer)) ts =
      (readMembers limit (outer.length + 1) kind ts).bind fun r =>
        (deliver (.seq kind ⟨some opening, some r.2.1⟩ (ms ++ r.1)) outer).bind fun s => go s r.2.2.1 := by
  rw [readMembers]
  cases hn : nextInside (.seq kind) ts with
  | error e => exact hg.of_nextInside_error (.seq kind opening ms) hn outer
  | ok next =>
    rcases next with _ | ⟨closing, after⟩
    · rw [hg.form (.seq kind opening ms :: outer) ts (by rintro _ ⟨⟩; exact hn)]
      simp only [List.length_cons]
      rcases readForm limit (outer.length + 1) ts with e | ⟨member, rest, fewer⟩
      · rfl
      · have hadd : (Frame.seq kind opening ms).add member = .ok (.seq kind opening (ms ++ [member])) := rfl
        simp only [Except.bind, deliver_cons hadd]
        rw [hg.members kind opening (ms ++ [member]) outer rest]
        cases readMembers limit (outer.length + 1) kind rest <;> simp [Except.bind]
    · rw [hg.of_nextInside_some (.seq kind opening ms) hn outer]
      simp [Frame.close, Except.bind]
  termination_by (ts.length, 1)

/-- Reading the rest of a map by descent is passing over it. -/
theorem pairs (hg : Sweeps limit go) (opening : Token) (ps : List (Key × Form)) (outer : List Frame) (ts : List Token) :
    go (.reading (.map opening ps none :: outer)) ts =
      (readPairs limit (outer.length + 1) ts).bind fun r =>
        (deliver (.map ⟨some opening, some r.2.1⟩ (ps ++ r.1)) outer).bind fun s => go s r.2.2.1 := by
  rw [readPairs]
  cases hn : nextInside .map ts with
  | error e => exact hg.of_nextInside_error (.map opening ps none) hn outer
  | ok next =>
    rcases next with _ | ⟨closing, after⟩
    · rw [hg.form (.map opening ps none :: outer) ts (by rintro _ ⟨⟩; exact hn)]
      simp only [List.length_cons]
      rcases readForm limit (outer.length + 1) ts with e | ⟨form, rest, fewer⟩
      · rfl
      · simp only [Except.bind]
        cases hk : form.toKey with
        | error e => simp [deliver, Frame.add_key, hk, Except.map]
        | ok key =>
          have hadd : (Frame.map opening ps none).add form = .ok (.map opening ps (some key)) := by
            rw [Frame.add_key, hk]
            rfl
          rw [deliver_cons hadd]
          simp only
          cases hn' : nextInside .map rest with
          | error e => exact hg.of_nextInside_error (.map opening ps (some key)) hn' outer
          | ok next =>
            rcases next with _ | ⟨closing, after⟩
            · rw [hg.form (.map opening ps (some key) :: outer) rest (by rintro _ ⟨⟩; exact hn')]
              simp only [List.length_cons]
              rcases readForm limit (outer.length + 1) rest with e | ⟨value, rest', fewer'⟩
              · rfl
              · have hadd' : (Frame.map opening ps (some key)).add value = .ok (.map opening (ps ++ [(key, value)]) none) := rfl
                simp only [Except.bind, deliver_cons hadd']
                rw [hg.pairs opening (ps ++ [(key, value)]) outer rest']
                cases readPairs limit (outer.length + 1) rest' <;> simp [Except.bind]
            · rw [hg.of_nextInside_some (.map opening ps (some key)) hn' outer]
              rfl
    · rw [hg.of_nextInside_some (.map opening ps none) hn outer]
      simp [Frame.close, Except.bind]
  termination_by (ts.length, 1)

end

end Sweeps

/-- The pass over the content of tokens is such a way. -/
theorem sweeps_runFrom (limit : Nat) : Sweeps limit fun s ts => runFrom limit s (content ts) where
  ends hs stack := by rw [content_of_skipComments_nil hs, runFrom_nil, finish_reading]
  steps hs stack := by rw [content_of_skipComments_cons hs, runFrom_cons]

/-- The pass goes on with a form that has just been read. -/
def resume (limit : Nat) (stack : List Frame) (f : Form) (rest : List Token) : Except ReadError Form :=
  (deliver f stack).bind fun s => runFrom limit s (content rest)

/-- Reading a form by descent is passing over its content. -/
theorem runFrom_form (limit : Nat) (stack : List Frame) (ts : List Token)
    (h : ∀ frame ∈ stack.head?, nextInside frame.shape ts = .ok none) :
    runFrom limit (.reading stack) (content ts) =
      (readForm limit stack.length ts).bind fun r => resume limit stack r.1 r.2.1 :=
  (sweeps_runFrom limit).form stack ts h

/-- Reading a list of tokens by descent is passing over their content. -/
theorem readTokens_eq_run (limit : Nat) (ts : List Token) : readTokens limit ts = run limit (content ts) := by
  rw [run, runFrom_form limit [] ts (by simp), readTokens]
  simp only [List.length_nil]
  rcases readForm limit 0 ts with e | ⟨f, rest, fewer⟩
  · rfl
  · simp only [Except.bind, resume, deliver]
    cases hs : skipComments rest with
    | nil => rw [content_of_skipComments_nil hs]; rfl
    | cons t ts => rw [content_of_skipComments_cons hs, runFrom_cons]; rfl

/-! ## Faults in the tokens -/

/-- A form that cannot be handed on stands in the place of a key and is none. -/
theorem eq_invalidKey_of_deliver {f : Form} {stack : List Frame} {e : ReadError} (h : deliver f stack = .error e) :
    e = .invalidKey (f.print .readable) := by
  rcases stack with _ | ⟨⟨kind, opening, members⟩ | ⟨opening, pairs, _ | k⟩, outer⟩
  · cases h
  · cases h
  · cases f <;> cases h <;> rfl
  · cases h

/-- A collection that cannot be closed is a map with a key that waits for its value. -/
theorem exists_of_close_error {frame : Frame} {t : Token} {e : ReadError} (h : frame.close t = .error e) :
    ∃ opening pairs k, frame = .map opening pairs (some k) ∧ e = k.unpaired := by
  rcases frame with ⟨kind, opening, members⟩ | ⟨opening, pairs, _ | k⟩
  · cases h
  · cases h
  · cases h
    exact ⟨opening, pairs, k, rfl, rfl⟩

/-- The faults of a step, and the states in which each of them is met. -/
inductive Refuses (limit : Nat) (t : Token) : State → ReadError → Prop where
  | trailing (f : Form) : Refuses limit t (.complete f) (.trailingInput t)
  | deep (stack : List Frame) : Refuses limit t (.reading stack) (.tooDeep limit)
  | stray : Refuses limit t (.reading []) (.unexpectedDelimiter t)
  | mismatched (frame : Frame) (outer : List Frame) :
    Refuses limit t (.reading (frame :: outer)) (.mismatchedDelimiter frame.shape (some t))
  | unpaired (opening : Token) (pairs : List (Key × Form)) (k : Key) (outer : List Frame) :
    Refuses limit t (.reading (.map opening pairs (some k) :: outer)) k.unpaired
  | spoiled {e : ReadError} (stack : List Frame) (h : readAtom t = .error e) : Refuses limit t (.reading stack) e
  | atomKey {f : Form} (stack : List Frame) (hd : Shape.ofOpening? t.chars = none ∧ Shape.ofClosing? t.chars = none)
    (h : readAtom t = .ok f) : Refuses limit t (.reading stack) (.invalidKey (f.print .readable))
  | collectionKey {frame : Frame} {f : Form} (outer : List Frame) (ht : t.chars = [frame.shape.closing])
    (h : frame.close t = .ok f) : Refuses limit t (.reading (frame :: outer)) (.invalidKey (f.print .readable))

/-- A step has no other faults. -/
theorem refuses_of_step {limit : Nat} {s : State} {t : Token} {e : ReadError} (h : step limit s t = .error e) :
    Refuses limit t s e := by
  cases s with
  | complete f =>
    cases h
    exact .trailing f
  | reading stack =>
    cases ho : Shape.ofOpening? t.chars with
    | some shape =>
      rw [step_opening ho] at h
      split at h <;> cases h
      exact .deep stack
    | none =>
      cases hc : Shape.ofClosing? t.chars with
      | none =>
        rw [step_atom ho hc] at h
        cases ha : readAtom t with
        | error e' =>
          rw [ha] at h
          cases h
          exact .spoiled stack ha
        | ok f =>
          rw [ha] at h
          obtain rfl := eq_invalidKey_of_deliver h
          exact .atomKey stack ⟨ho, hc⟩ ha
      | some shape =>
        cases stack with
        | nil =>
          rw [step_stray hc] at h
          cases h
          exact .stray
        | cons frame outer =>
          rw [step_closing hc] at h
          split at h
          · next heq =>
            cases hclose : frame.close t with
            | error e' =>
              rw [hclose] at h
              cases h
              obtain ⟨opening, pairs, k, rfl, rfl⟩ := exists_of_close_error hclose
              exact .unpaired opening pairs k outer
            | ok f =>
              rw [hclose] at h
              obtain rfl := eq_invalidKey_of_deliver h
              exact .collectionKey outer (heq ▸ Shape.eq_of_ofClosing? hc) hclose
          · cases h
            exact .mismatched frame outer

/-- The fault of a step is a fault in the tokens. -/
theorem isIncomplete_of_step {limit : Nat} {s : State} {t : Token} {e : ReadError} (h : step limit s t = .error e) :
    e.isIncomplete = false := by
  cases refuses_of_step h with
  | spoiled stack ha => cases readAtom_eq_error_iff.mp ha <;> rfl
  | _ => rfl

/-! ## No input -/

/-- Handing on a form leaves something begun. -/
theorem deliver_ne_reading_nil (f : Form) (stack : List Frame) : deliver f stack ≠ .ok (.reading []) := by
  cases stack with
  | nil => nofun
  | cons frame outer =>
    intro h
    obtain ⟨frame', -, hs⟩ := exists_of_deliver_cons h
    cases hs

/-- A step leaves something begun. -/
theorem ne_reading_nil_of_step {limit : Nat} {s s' : State} {t : Token} (h : step limit s t = .ok s') : s' ≠ .reading [] := by
  cases s with
  | complete f => cases h
  | reading stack =>
    rintro rfl
    rcases step_ok_cases h with ⟨shape, -, -, hs⟩ | ⟨f, -, -, hd⟩ | ⟨frame, outer, f, -, -, -, hd⟩
    · cases hs
    · exact deliver_ne_reading_nil f stack hd
    · exact deliver_ne_reading_nil f outer hd

/-- Once something was begun, the end of the input is not an empty input. -/
theorem runFrom_ne_emptyInput (limit : Nat) {s : State} (h : s ≠ .reading []) (ts : List Token) :
    runFrom limit s ts ≠ .error .emptyInput := by
  induction ts generalizing s with
  | nil =>
    rw [runFrom_nil]
    unfold State.finish
    split <;> simp_all
  | cons t ts ih =>
    rw [runFrom_cons]
    cases hs : step limit s t with
    | error e =>
      rintro ⟨⟩
      cases isIncomplete_of_step hs
    | ok s' => exact ih (ne_reading_nil_of_step hs)

/-- The pass complains that there is no input exactly when there is none. -/
theorem run_eq_emptyInput_iff (limit : Nat) (ts : List Token) : run limit ts = .error .emptyInput ↔ ts = [] := by
  constructor
  · intro h
    cases ts with
    | nil => rfl
    | cons t ts =>
      rw [run, runFrom_cons] at h
      cases hs : step limit (.reading []) t with
      | error e =>
        rw [hs] at h
        cases h
        cases isIncomplete_of_step hs
      | ok s =>
        rw [hs] at h
        exact absurd h (runFrom_ne_emptyInput limit (ne_reading_nil_of_step hs) ts)
  · rintro rfl
    rfl

end Pass

/-! ## The leftmost fault -/

/-- Reading a text gives what one pass over its content gives, be it a form or a fault. In particular the text counts as empty
exactly when it holds no token but comments. What the pass takes an atom for is the form that the token stands for, or what is
wrong with it. -/
theorem readText_eq_pass (limit : Nat) (source : String) :
    readText limit source = Pass.run limit (content (tokenize source)) ∧
      (readText limit source = .error .emptyInput ↔ ∀ t ∈ tokenize source, t.isComment = true) ∧
      ∀ t, (∀ f, Atom t f ↔ ¬Shape.IsDelimiter t.chars ∧ readAtom t = .ok f) ∧ ∀ e, readAtom t = .error e ↔ AtomFault t e := by
  have heq : readText limit source = Pass.run limit (content (tokenize source)) :=
    Pass.readTokens_eq_run limit (tokenize source)
  refine ⟨heq, ?_, fun t => ⟨fun f => atom_iff, fun e => readAtom_eq_error_iff⟩⟩
  rw [heq, Pass.run_eq_emptyInput_iff]
  simp [content]

end TinyLisp

import TinyLisp.Proofs.Entries
import TinyLisp.Proofs.Parts
import TinyLisp.Proofs.Pass

/-!
# Reading does not look at offsets

What a token means is its text; its offset is only carried along, into forms and into reports. To say so, the offsets in
tokens, forms, reports and states of a pass are changed by a function. `run_relocate` says that a pass over tokens with changed
offsets gives the form or the report of the pass over the tokens, with its offsets changed. `unplaced` forgets all offsets.
-/

namespace TinyLisp

/-! ## Change of offsets -/

/-- The token at another offset. -/
def Token.relocate (g : Nat → Nat) (t : Token) : Token := ⟨t.text, g t.offset⟩

/-- The delimiters at other offsets. -/
def Delimiters.relocate (g : Nat → Nat) (d : Delimiters) : Delimiters :=
  ⟨d.opening.map (Token.relocate g), d.closing.map (Token.relocate g)⟩

/-- The key with its token at another offset. -/
def Key.relocate (g : Nat → Nat) : Key → Key
  | .str value token => .str value (token.map (Token.relocate g))
  | .keyword k token => .keyword k (token.map (Token.relocate g))

mutual

/-- The form with its tokens at other offsets. -/
def Form.relocate (g : Nat → Nat) : Form → Form
  | .int value token => .int value (token.map (Token.relocate g))
  | .symbol name token => .symbol name (token.map (Token.relocate g))
  | .str value token => .str value (token.map (Token.relocate g))
  | .keyword k token => .keyword k (token.map (Token.relocate g))
  | .bool value => .bool value
  | .seq kind delims members => .seq kind (delims.relocate g) (relocateMembers g members)
  | .map delims pairs => .map (delims.relocate g) (relocatePairs g pairs)
  | .builtin function => .builtin function

/-- The members with their tokens at other offsets. -/
def relocateMembers (g : Nat → Nat) : List Form → List Form
  | [] => []
  | m :: ms => m.relocate g :: relocateMembers g ms

/-- The keys and values with their tokens at other offsets. -/
def relocatePairs (g : Nat → Nat) : List (Key × Form) → List (Key × Form)
  | [] => []
  | (k, v) :: rest => (k.relocate g, v.relocate g) :: relocatePairs g rest

end

/-- The report with its offsets changed. -/
def ReadError.relocate (g : Nat → Nat) : ReadError → ReadError
  | .mismatchedDelimiter expected found => .mismatchedDelimiter expected (found.map (Token.relocate g))
  | .unexpectedDelimiter found => .unexpectedDelimiter (found.relocate g)
  | .unbalancedString offset => .unbalancedString (g offset)
  | .trailingInput found => .trailingInput (found.relocate g)
  | e => e

/-- Forgets the offset of a token. -/
def Token.unplaced (t : Token) : Token := t.relocate fun _ => 0

/-- Forgets all offsets in a form. -/
def Form.unplaced (f : Form) : Form := f.relocate fun _ => 0

/-- Members are moved one by one. -/
theorem relocateMembers_eq_map (g : Nat → Nat) (ms : List Form) : relocateMembers g ms = ms.map (Form.relocate g) := by
  induction ms <;> simp_all [relocateMembers]

/-- Keys and values are moved one by one. -/
theorem relocatePairs_eq_map (g : Nat → Nat) (ps : List (Key × Form)) :
    relocatePairs g ps = ps.map (Prod.map (Key.relocate g) (Form.relocate g)) := by
  induction ps <;> simp_all [relocatePairs, Prod.map]

@[simp] theorem Token.text_relocate (g : Nat → Nat) (t : Token) : (t.relocate g).text = t.text := rfl

@[simp] theorem Token.chars_relocate (g : Nat → Nat) (t : Token) : (t.relocate g).chars = t.chars := rfl

@[simp] theorem Key.index_relocate (g : Nat → Nat) (k : Key) : (k.relocate g).index = k.index := by cases k <;> rfl

@[simp] theorem Key.spell_relocate (g : Nat → Nat) (mode : PrintMode) (k : Key) :
    (k.relocate g).spell mode = k.spell mode := by cases k <;> rfl

/-- What is written for a form does not depend on offsets. -/
@[simp] theorem Form.spell_relocate (g : Nat → Nat) (mode : PrintMode) (f : Form) :
    (f.relocate g).spell mode = f.spell mode := by
  induction f with
  | int | symbol | str | keyword | bool | builtin => rfl
  | seq kind delims members ih =>
    rw [Form.relocate, Form.spell, Form.spell, spellMembers_eq_map, spellMembers_eq_map, relocateMembers_eq_map,
      List.map_map]
    exact congrArg _ (List.map_congr_left ih)
  | map delims pairs ih =>
    have hv : (pairs.map (Prod.map (Key.relocate g) (Form.relocate g))).map (fun p => (p.1, p.2.spell mode)) =
        (pairs.map fun p => (p.1, p.2.spell mode)).map (Prod.map (Key.relocate g) id) := by
      simp only [List.map_map]
      exact List.map_congr_left fun p hp => by simp [ih p hp]
    rw [Form.relocate, Form.spell, Form.spell, spellValues_eq_map, spellValues_eq_map, relocatePairs_eq_map, hv,
      Entries.entries_map (Key.index_relocate g), List.map_map]
    exact congrArg _ (List.map_congr_left fun e _ => by simp [spellEntry])

/-- A form that was moved differs from the form in offsets only. -/
theorem Form.unplaced_relocate (g : Nat → Nat) (f : Form) : (f.relocate g).unplaced = f.unplaced := by
  have htoken : ∀ token : Option Token,
      (token.map (Token.relocate g)).map (Token.relocate fun _ => 0) = token.map (Token.relocate fun _ => 0) := by
    intro token
    cases token <;> rfl
  have hkey : ∀ k : Key, (k.relocate g).relocate (fun _ => 0) = k.relocate fun _ => 0 := by
    intro k
    cases k <;> simp only [Key.relocate, htoken]
  unfold Form.unplaced
  induction f with
  | int | symbol | str | keyword => simp only [Form.relocate, htoken]
  | bool | builtin => rfl
  | seq kind delims members ih =>
    simp only [Form.relocate, Delimiters.relocate, htoken, relocateMembers_eq_map, List.map_map]
    exact congrArg _ (List.map_congr_left ih)
  | map delims pairs ih =>
    simp only [Form.relocate, Delimiters.relocate, htoken, relocatePairs_eq_map, List.map_map]
    exact congrArg _ (List.map_congr_left fun p hp => Prod.ext (hkey p.1) (ih p hp))

/-- A key that is moved is the moved form of a key. -/
theorem Key.toForm_relocate (g : Nat → Nat) (k : Key) : (k.relocate g).toForm = k.toForm.relocate g := by
  cases k <;> rfl

/-! ## Results -/

/-- A result of reading with its offsets changed, those of the value by the given function. -/
def relocateResult {α β : Type} (g : Nat → Nat) (onValue : α → β) (r : Except ReadError α) : Except ReadError β :=
  (r.map onValue).mapError (ReadError.relocate g)

section

variable {α β γ δ : Type} (g : Nat → Nat)

@[simp] theorem relocateResult_ok (onValue : α → β) (a : α) : relocateResult g onValue (.ok a) = .ok (onValue a) := rfl

@[simp] theorem relocateResult_error (onValue : α → β) (e : ReadError) :
    relocateResult g onValue (.error e) = .error (e.relocate g) := rfl

/-- The change of offsets commutes with working on. -/
theorem relocateResult_bind {onValue : α → β} {onNext : γ → δ} {r : Except ReadError α} {next : α → Except ReadError γ}
    {next' : β → Except ReadError δ} (h : ∀ a, next' (onValue a) = relocateResult g onNext (next a)) :
    (relocateResult g onValue r).bind next' = relocateResult g onNext (r.bind next) := by
  cases r with
  | error e => rfl
  | ok a => exact h a

end

/-- The key that a form is, at other offsets. -/
theorem asKey?_relocate (g : Nat → Nat) (f : Form) : (f.relocate g).asKey? = f.asKey?.map (Key.relocate g) := by
  cases f <;> rfl

/-- A form is checked for being a key without a look at offsets. -/
theorem toKey_relocate (g : Nat → Nat) (f : Form) : (f.relocate g).toKey = relocateResult g (Key.relocate g) f.toKey := by
  unfold Form.toKey Form.print
  rw [asKey?_relocate, Form.spell_relocate]
  cases f.asKey? <;> rfl

/-- The complaint about a key without a value does not depend on offsets. -/
theorem unpaired_relocate (g : Nat → Nat) (k : Key) : (k.relocate g).unpaired = k.unpaired := by
  simp [Key.unpaired, Form.print]

/-- An atom is read without a look at offsets. -/
theorem readAtom_relocate (g : Nat → Nat) (t : Token) :
    readAtom (t.relocate g) = relocateResult g (Form.relocate g) (readAtom t) := by
  unfold readAtom
  simp only [Token.text_relocate, Token.chars_relocate]
  by_cases ht : t.text = "true"
  · simp [ht, Form.relocate]
  by_cases hf : t.text = "false"
  · simp [hf, Form.relocate]
  simp only [ht, hf, if_false]
  cases Numeral.parse? t.chars with
  | some i => cases h : toWord? i <;> simp [h, Form.relocate, ReadError.relocate]
  | none =>
    simp only
    split
    · rfl
    · cases hq : Quoted.inside? t.chars with
      | none => rfl
      | some inside => cases hd : Quoted.decode inside <;> simp [hd, Form.relocate, ReadError.relocate]
    · rfl

/-! ## The pass -/

namespace Pass

/-- The open collection with its tokens at other offsets. -/
def Frame.relocate (g : Nat → Nat) : Frame → Frame
  | .seq kind opening members => .seq kind (opening.relocate g) (members.map (Form.relocate g))
  | .map opening pairs pending =>
    .map (opening.relocate g) (pairs.map (Prod.map (Key.relocate g) (Form.relocate g))) (pending.map (Key.relocate g))

/-- The state with its tokens at other offsets. -/
def State.relocate (g : Nat → Nat) : State → State
  | .reading stack => .reading (stack.map (Frame.relocate g))
  | .complete f => .complete (f.relocate g)

variable (g : Nat → Nat)

@[simp] theorem Frame.shape_relocate (frame : Frame) : (frame.relocate g).shape = frame.shape := by cases frame <;> rfl

theorem Frame.start_relocate (t : Token) (shape : Shape) :
    Frame.start (t.relocate g) shape = (Frame.start t shape).relocate g := by cases shape <;> rfl

/-- A collection takes a form without a look at offsets. -/
theorem Frame.add_relocate (f : Form) (frame : Frame) :
    (frame.relocate g).add (f.relocate g) = relocateResult g (Frame.relocate g) (frame.add f) := by
  rcases frame with ⟨kind, opening, members⟩ | ⟨opening, pairs, _ | k⟩
  · simp [Frame.relocate, Frame.add]
  · simp only [Frame.relocate, Option.map_none, Frame.add_key, toKey_relocate]
    cases f.toKey <;> rfl
  · simp [Frame.relocate, Frame.add]

/-- A collection is closed without a look at offsets. -/
theorem Frame.close_relocate (t : Token) (frame : Frame) :
    (frame.relocate g).close (t.relocate g) = relocateResult g (Form.relocate g) (frame.close t) := by
  rcases frame with ⟨kind, opening, members⟩ | ⟨opening, pairs, _ | k⟩
  · simp [Frame.relocate, Frame.close, Form.relocate, relocateMembers_eq_map, Delimiters.relocate]
  · simp [Frame.relocate, Frame.close, Form.relocate, relocatePairs_eq_map, Delimiters.relocate]
  · exact congrArg Except.error (unpaired_relocate g k)

theorem deliver_relocate (f : Form) (stack : List Frame) :
    deliver (f.relocate g) (stack.map (Frame.relocate g)) = relocateResult g (State.relocate g) (deliver f stack) := by
  cases stack with
  | nil => rfl
  | cons frame outer =>
    simp only [List.map_cons, deliver, Frame.add_relocate]
    cases frame.add f <;> rfl

/-- A step is made without a look at offsets. -/
theorem step_relocate (limit : Nat) (s : State) (t : Token) :
    step limit (s.relocate g) (t.relocate g) = relocateResult g (State.relocate g) (step limit s t) := by
  cases s with
  | complete f => rfl
  | reading stack =>
    rw [State.relocate]
    cases ho : Shape.ofOpening? t.chars with
    | some shape =>
      rw [step_opening (t := t.relocate g) ho, step_opening ho, List.length_map, Frame.start_relocate]
      split <;> rfl
    | none =>
      cases hc : Shape.ofClosing? t.chars with
      | none =>
        rw [step_atom (t := t.relocate g) ho hc, step_atom ho hc, readAtom_relocate]
        exact relocateResult_bind g fun f => deliver_relocate g f stack
      | some shape =>
        cases stack with
        | nil => rw [List.map_nil, step_stray (t := t.relocate g) hc, step_stray hc]; rfl
        | cons frame outer =>
          rw [List.map_cons, step_closing (t := t.relocate g) hc, step_closing hc, Frame.shape_relocate]
          split
          · rw [Frame.close_relocate]
            exact relocateResult_bind g fun f => deliver_relocate g f outer
          · rfl

theorem finish_relocate (s : State) : (s.relocate g).finish = relocateResult g (Form.relocate g) s.finish := by
  rcases s with (_ | ⟨frame, outer⟩) | f
  · rfl
  · simp [State.relocate, State.finish, ReadError.relocate]
  · rfl

/-- A pass goes on without a look at offsets. -/
theorem runFrom_relocate (limit : Nat) (s : State) (ts : List Token) :
    runFrom limit (s.relocate g) (ts.map (Token.relocate g)) =
      relocateResult g (Form.relocate g) (runFrom limit s ts) := by
  induction ts generalizing s with
  | nil => exact finish_relocate g s
  | cons t ts ih =>
    rw [List.map_cons, runFrom_cons, runFrom_cons, step_relocate]
    exact relocateResult_bind g ih

/-- A pass is made without a look at offsets. -/
theorem run_relocate (limit : Nat) (ts : List Token) :
    run limit (ts.map (Token.relocate g)) = relocateResult g (Form.relocate g) (run limit ts) :=
  runFrom_relocate g limit (.reading []) ts

end Pass

end TinyLisp

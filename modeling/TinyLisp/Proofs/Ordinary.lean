import Mathlib
import TinyLisp.Proofs.Causes
import TinyLisp.Proofs.Depth
import TinyLisp.Proofs.Reports

/-!
# Errors that come of lines

Lines lead to ordinary errors only (`answers_ordinary`). Evaluation has its limit of depth, but the reader nests no form so deeply
that a session that is not inside of an evaluation would reach it, and every line leaves the session where it was. The routines of
arithmetic complain about the number of their operands, but the arity is checked before. And decoding complains about a backslash
at the end of a string literal, but such a literal does not count as finished (`AtomFault`).
-/

namespace TinyLisp

/-- The errors that come of lines: what the reader reports, apart from an escape that is a backslash, and of evaluation all but a
limit of depth, an interruption and a failure of a function of its own. -/
inductive Error.Ordinary : Error → Prop where
  | read {e : ReadError} (h : e ≠ .unrecognizedEscape '\\') : Ordinary (.read e)
  | unboundSymbol (name : String) : Ordinary (.eval (.unboundSymbol name))
  | notCallable (head : String) : Ordinary (.eval (.notCallable head))
  | arityMismatch (name : String) (expected got : Nat) : Ordinary (.eval (.arityMismatch name expected got))
  | typeMismatch (expected got : FormType) : Ordinary (.eval (.typeMismatch expected.name got.name))
  | divisionByZero : Ordinary (.eval .divisionByZero)
  | integerOverflow : Ordinary (.eval .integerOverflow)

/-! ## Reading -/

/-- The reader does not complain about a backslash after a backslash. -/
theorem ne_unrecognizedEscape_of_readText {limit : Nat} {source : String} {e : ReadError} (h : readText limit source = .error e) :
    e ≠ .unrecognizedEscape '\\' := by
  rintro rfl
  cases names_of_readText h with
  | spoiled ht ha =>
    cases readAtom_eq_error_iff.mp ha with
    | escape _ _ _ hc => exact hc (by simp)

/-! ## Evaluating -/

/-- Whether a form is no function, or a binary operation of arithmetic. -/
def Form.IsPlain (f : Form) : Prop := ∀ b, f = .builtin b → b.IsBinary

/-- Being plain is carried from forms to values. -/
theorem carried_isPlain : Carried Form.IsPlain where
  collection f hf := by
    rintro b rfl
    cases hf
  ofWord _ := nofun
  isBinary b h := h b rfl

/-- An atom is plain. -/
theorem Atom.isPlain {t : Token} {f : Form} (h : Atom t f) : f.IsPlain := by
  cases h <;> nofun

namespace Session

/-- The prelude binds plain forms. -/
theorem carries_isPlain (serial flag : Nat) (settings : Settings) : (withPrelude serial flag settings).Carries Form.IsPlain := by
  refine carries_withPrelude (fun name _ op => ?_) flag settings
  rintro b ⟨⟩
  exact ⟨rfl, op, rfl⟩

/-- A form that is read does not reach the limit of depth, if the limit exceeds that of the reader. -/
theorem ne_stackOverflow_of_readText {limit : Nat} {source : String} {f : Form} (h : readText limit source = .ok f)
    {settings : Settings} (hlimit : limit < settings.maxDepth) (flag : Nat) (m : Machine World) (hdepth : m.env.depth = 0)
    (depth bound : Nat) : (f.eval (World.host flag) settings m).1 ≠ .error (.stackOverflow depth bound) := by
  have hheight := f.height_le_nesting_add_one
  have hnesting : f.nesting ≤ limit := (readTokens_eq_ok_iff.mp h).2
  have hfits : m.env.depth + f.height ≤ settings.maxDepth := by omega
  have hdecides := f.run_decides (s := ⟨World.host flag, settings.maxDepth, m.env.bindings⟩) (World.host_neverOverflows flag)
    (Nat.le_of_add_right_le hfits) m.world
  rw [eval_eq_run]
  exact fun ho => (hdecides.of_overflow depth bound ho).1 hfits

/-- The results of lines that are evaluated one after the other, each in the session and the world that the one before leaves. -/
def answers (s : Session) (w : World) : List String → List (Except Error String)
  | [] => []
  | line :: lines => (s.evalLine w line).result :: (s.evalLine w line).session.answers (s.evalLine w line).world lines

/-- In an arithmetic session the results of lines are those that each line has by itself. -/
theorem Arithmetic.answers_eq_map {s : Session} (hs : s.Arithmetic) (w : World) (lines : List String) :
    s.answers w lines = lines.map fun line => (s.evalLine w line).result := by
  induction lines with
  | nil => rfl
  | cons line lines ih =>
    obtain ⟨hsession, hworld⟩ := hs.evalLine w line
    rw [answers, hsession, hworld, ih, List.map_cons]

end Session

/-- The error of a line in a session with the prelude, the default limit of depth and an interrupt flag that is down. -/
theorem ordinary_of_evalLine {serial flag : Nat} {trace : Bool} {w : World} (h : w.isRaised flag = false) {line : String}
    {e : Error} (he : ((Session.withPrelude serial flag { trace }).evalLine w line).result = .error e) : e.Ordinary := by
  have hread : ∀ f, readText defaultNesting line = .ok f → f.Throughout Form.IsPlain := fun f hf =>
    throughout_of_readText hf carried_isPlain.collection fun t _ g => Atom.isPlain
  rcases (Session.carries_isPlain serial flag { trace }).evalLine_cases carried_isPlain hread w with
    ⟨e', hr, hresult⟩ | ⟨f, e', hr, heval, harises, hresult⟩ | ⟨v, -, hresult⟩
  · cases he.symm.trans hresult
    exact .read (ne_unrecognizedEscape_of_readText hr)
  · cases he.symm.trans hresult
    cases harises with
    | interrupted hraised =>
      have hdown : w.isRaised flag = true := hraised
      rw [h] at hdown
      cases hdown
    | overflow depth =>
      have hlimit : defaultNesting < 1000 := by decide
      exact absurd heval (Session.ne_stackOverflow_of_readText hr hlimit flag _ rfl depth _)
    | unbound => exact .unboundSymbol _
    | notCallable => exact .notCallable _
    | arity => exact .arityMismatch _ _ _
    | operand got => exact .typeMismatch _ got
    | division => exact .divisionByZero
    | range => exact .integerOverflow
  · cases he.symm.trans hresult

/-- However many lines are evaluated one after the other in a session with the prelude and the default limit of depth, each has a
result or leads to an ordinary error, as long as no one raises the interrupt flag. -/
theorem answers_ordinary (serial flag : Nat) (trace : Bool) (w : World) (h : w.isRaised flag = false) (lines : List String) :
    ∀ r ∈ (Session.withPrelude serial flag { trace }).answers w lines, ∀ e, r = .error e → e.Ordinary := by
  rw [(Session.arithmetic_withPrelude serial flag { trace }).answers_eq_map]
  refine List.forall_mem_map.mpr fun line _ e he => ?_
  exact ordinary_of_evalLine h he

/-- A division by zero, an unknown escape and an integer in the place of a function, one after the other. -/
theorem answers_ordinary_of_three_faults :
    ({} : World).isRaised 0 = false ∧
      Session.standard.answers {} ["(/ 1 0)", "\"\\x\"", "(007)"] =
        [.error (.eval .divisionByZero), .error (.read (.unrecognizedEscape 'x')), .error (.eval (.notCallable "007"))] ∧
      ∀ r ∈ Session.standard.answers {} ["(/ 1 0)", "\"\\x\"", "(007)"], ∀ e, r = .error e → e.Ordinary :=
  ⟨rfl, by cbv, answers_ordinary 0 0 false {} rfl _⟩

end TinyLisp

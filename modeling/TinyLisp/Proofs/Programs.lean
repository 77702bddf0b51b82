import Mathlib
import TinyLisp.Proofs.Prelude

/-!
# Arithmetic programs

A program is an integer or an operation on two programs. Its value is that of exact arithmetic on the integers, and it goes wrong
where an operation divides by zero or has a value out of range. `program_answer` says that a line with the program in it, written
as nested lists, has the value as its result, or the error of the operation that goes wrong first.

The two halves meet in `Program.compute`, which works on words as evaluation does. It gives the exact value, or fails as the first
operation does that goes wrong (`Program.compute_settles`), and the run of a form that stands for the program gives what it gives
(`Program.Represents.run`).
-/

namespace TinyLisp

/-- The sign of an operation. -/
def Operator.sign : Operator → String
  | .add => "+"
  | .sub => "-"
  | .mul => "*"
  | .div => "/"

/-- A program: an integer, or an operation on the values of two programs. -/
inductive Program where
  | literal (value : Int64)
  | apply (op : Operator) (left right : Program)

namespace Program

/-! ## What a program means -/

/-- How deeply operations are nested. -/
def nesting : Program → Nat
  | literal _ => 0
  | apply _ l r => max l.nesting r.nesting + 1

/-- The value in exact arithmetic, where division drops the fraction. -/
def value : Program → Int
  | literal w => w.toInt
  | apply .add l r => l.value + r.value
  | apply .sub l r => l.value - r.value
  | apply .mul l r => l.value * r.value
  | apply .div l r => l.value.tdiv r.value

/-- The operations in the order in which they are carried out: those in the left operand, those in the right one, and then the
operation itself. -/
def operations : Program → List Program
  | literal _ => []
  | apply op l r => l.operations ++ r.operations ++ [apply op l r]

/-- What goes wrong at the operation that comes last, if that does. -/
def offence : Program → Option EvalError
  | literal _ => none
  | apply op l r =>
    if op = .div ∧ r.value = 0 then some .divisionByZero
    else if InRange (apply op l r).value then none
    else some .integerOverflow

/-- The result of a line with the program in it: the error of the first operation that goes wrong, or else the value. -/
def answer (p : Program) : Except Error String :=
  match p.operations.findSome? offence with
  | some e => .error (.eval e)
  | none => .ok (toString p.value)

/-- The texts of the tokens that a program is written with: a numeral, or a list of the sign and the operands. -/
inductive Spells : Program → List String → Prop where
  | literal {w : Int64} {text : String} (h : Numeral.Denotes text.toList w.toInt) : Spells (literal w) [text]
  | apply {op : Operator} {l r : Program} {ls rs : List String} (hl : l.Spells ls) (hr : r.Spells rs) :
    Spells (apply op l r) ("(" :: op.sign :: (ls ++ rs ++ [")"]))

/-- The text of a program, with a blank between two members of a list. -/
def text : Program → String
  | literal w => toString w.toInt
  | apply op l r => "(" ++ op.sign ++ " " ++ l.text ++ " " ++ r.text ++ ")"

/-! ## Words instead of integers -/

/-- The value computed with words, up to the first error. -/
def compute : Program → Except EvalError Int64
  | literal w => .ok w
  | apply op l r => do
    let a ← l.compute
    let b ← r.compute
    op.compute a b

end Program

/-- A word is zero exactly when its value is. -/
theorem toInt_eq_zero_iff {w : Int64} : w.toInt = 0 ↔ w = 0 := by
  rw [← Int64.toInt_zero, Int64.toInt_inj]

/-- Of the quotients of integers in range only one is out of range. -/
theorem not_inRange_tdiv_iff {a b : Int} (ha : InRange a) (hb : b ≠ 0) :
    ¬InRange (a.tdiv b) ↔ a = -0x8000000000000000 ∧ b = -1 := by
  unfold InRange at ha ⊢
  have habs : (a.tdiv b).natAbs = a.natAbs / b.natAbs := Int.natAbs_tdiv a b
  rcases (by omega : b = 1 ∨ b = -1 ∨ 2 ≤ b.natAbs) with rfl | rfl | hlarge
  · rw [Int.tdiv_one]
    omega
  · rw [Int.tdiv_neg, Int.tdiv_one]
    omega
  · have hhalf : a.natAbs / b.natAbs ≤ a.natAbs / 2 := Nat.div_le_div_left hlarge (by decide)
    omega

namespace Program

/-- An operation on words that have the values of its operands gives the word with its value, or fails with its offence. -/
theorem settles_compute (op : Operator) {l r : Program} {a b : Int64} (ha : a.toInt = l.value) (hb : b.toInt = r.value) :
    Settles (fun w => (apply op l r).offence = none ∧ w.toInt = (apply op l r).value)
      (fun e => (apply op l r).offence = some e) (op.compute a b) := by
  have hexact : op.exact a.toInt b.toInt = (apply op l r).value := by
    rw [ha, hb]
    cases op <;> rfl
  have hzero : op = .div ∧ b = 0 ↔ op = .div ∧ r.value = 0 := by rw [← toInt_eq_zero_iff, hb]
  unfold Operator.compute
  rw [hexact]
  by_cases hdiv : op = .div ∧ r.value = 0
  · rw [if_pos (hzero.mpr hdiv)]
    exact if_pos hdiv
  · rw [if_neg (mt hzero.mp hdiv)]
    have hoffence : (apply op l r).offence = if InRange (apply op l r).value then none else some .integerOverflow :=
      if_neg hdiv
    rw [hoffence]
    by_cases hrange : InRange (apply op l r).value
    · obtain ⟨w, hw, hvalue⟩ := exists_toWord? hrange
      rw [hw]
      exact ⟨if_pos hrange, hvalue⟩
    · rw [toWord?_eq_none_iff.mpr hrange]
      exact if_neg hrange

/-- Computing with words gives the word with the exact value, or fails with the first offence. -/
theorem compute_settles (p : Program) :
    Settles (fun w => p.operations.findSome? offence = none ∧ w.toInt = p.value)
      (fun e => p.operations.findSome? offence = some e) p.compute := by
  induction p with
  | literal w => exact ⟨rfl, rfl⟩
  | apply op l r ihl ihr =>
    have hfirst : (apply op l r).operations.findSome? offence =
        ((l.operations.findSome? offence).or (r.operations.findSome? offence)).or (apply op l r).offence := by
      rw [operations, List.findSome?_append, List.findSome?_append, List.findSome?_singleton]
    rw [hfirst]
    unfold compute
    cases hl : l.compute with
    | error e =>
      rw [hl] at ihl
      rw [show l.operations.findSome? offence = some e from ihl]
      exact rfl
    | ok a =>
      rw [hl] at ihl
      rw [ihl.1, Option.none_or]
      cases hr : r.compute with
      | error e =>
        rw [hr] at ihr
        rw [show r.operations.findSome? offence = some e from ihr]
        exact rfl
      | ok b =>
        rw [hr] at ihr
        rw [ihr.1, Option.none_or]
        exact settles_compute op ihl.2 ihr.2

/-! ## Programs as they are read -/

/-- A form that stands for a program, whatever its tokens are: an integer, or a list of the sign and the operands. -/
inductive Represents : Program → Form → Prop where
  | literal {w : Int64} {token : Option Token} : Represents (literal w) (.int w token)
  | apply {op : Operator} {l r : Program} {x y : Form} {delims : Delimiters} {token : Option Token} (hl : l.Represents x)
    (hr : r.Represents y) : Represents (apply op l r) (.seq .list delims [.symbol op.sign token, x, y])

/-- The form is nested as deeply as the program is. -/
theorem Represents.nesting {p : Program} {f : Form} (h : p.Represents f) : f.nesting = p.nesting := by
  induction h with
  | literal => rfl
  | apply _ _ ihl ihr => simp [Form.nesting, nestingOfMembers, Program.nesting, ihl, ihr]

/-- A sign is a symbol. -/
theorem atom_sign {t : Token} {op : Operator} (h : t.text = op.sign) : Atom t (.symbol op.sign (some t)) := by
  obtain ⟨text, offset⟩ := t
  cases h
  cases op <;> exact atom_iff.mpr ⟨Shape.not_isDelimiter_iff.mpr ⟨by cbv, by cbv⟩, by cbv⟩

/-- Tokens with the texts that a program is written with derive a form that stands for the program. -/
theorem Spells.exists_derives {p : Program} {ts : List Token} (h : p.Spells (ts.map Token.text)) :
    ∃ f, Derives ts f ∧ p.Represents f := by
  generalize htexts : ts.map Token.text = texts at h
  induction h generalizing ts with
  | @literal w text h =>
    obtain ⟨t, rfl, rfl⟩ := List.map_eq_singleton_iff.mp htexts
    exact ⟨_, .atom (.int h rfl), .literal⟩
  | @apply op l r ls rs hl hr ihl ihr =>
    obtain ⟨o, ts, rfl, ho, htexts⟩ := List.map_eq_cons_iff.mp htexts
    obtain ⟨s, ts, rfl, hs, htexts⟩ := List.map_eq_cons_iff.mp htexts
    obtain ⟨ts, cs, rfl, hoperands, hclosing⟩ := List.map_eq_append_iff.mp htexts
    obtain ⟨us, vs, rfl, hus, hvs⟩ := List.map_eq_append_iff.mp hoperands
    obtain ⟨c, rfl, hc⟩ := List.map_eq_singleton_iff.mp hclosing
    obtain ⟨x, hx, hlx⟩ := ihl hus
    obtain ⟨y, hy, hry⟩ := ihr hvs
    have hphrases : ∀ p ∈ [([s], Form.symbol op.sign (some s)), (us, x), (vs, y)], Derives p.1 p.2 := by
      simp only [List.forall_mem_cons]
      exact ⟨.atom (atom_sign hs), hx, hy, nofun⟩
    have hopening : o.chars = [(Shape.seq .list).opening] := by rw [Token.chars, ho]; rfl
    have hclosing : c.chars = [(Shape.seq .list).closing] := by rw [Token.chars, hc]; rfl
    have hseq := Derives.seq hopening hclosing hphrases
    simp only [List.flatMap_cons, List.flatMap_nil, List.append_nil, List.cons_append] at hseq
    exact ⟨_, hseq, .apply hlx hry⟩

end Program

/-- A numeral is written as the standard library writes it. -/
theorem Numeral.ofList_spell (i : Int) : String.ofList (spell i) = toString i := by
  cases i with
  | ofNat n => rfl
  | negSucc n =>
    rw [spell, ← List.singleton_append, String.ofList_append]
    rfl

/-- A lexeme that is no comment gives a token of its text. -/
theorem Lexer.Stands.gives {text : String} (h : Stands text.toList) (hc : text.toList.head? ≠ some ';') :
    Gives text.toList id fun ts => ts.map Token.text = [text] := by
  intro offset rest hb
  refine ⟨[⟨text, offset⟩], rfl, ?_, ?_⟩
  · rw [id_eq, List.forall_mem_singleton]
    simpa [Token.isComment, Token.chars] using hc
  · rw [h.tokens hb, String.ofList_toList]
    rfl

namespace Program

/-- The text of an operation, as lists are written. -/
theorem toList_text_apply (op : Operator) (l r : Program) :
    (apply op l r).text.toList = (Shape.seq .list).enclose [op.sign.toList, l.text.toList, r.text.toList] := by
  simp [text, Shape.enclose, Shape.opening, Shape.closing, List.intercalate]

/-- Wherever the text of a program stands, its tokens are what the program is written with. -/
theorem gives_text (p : Program) : Lexer.Gives p.text.toList id fun ts => p.Spells (ts.map Token.text) := by
  induction p with
  | literal w =>
    have hspell : (text (literal w)).toList = Numeral.spell w.toInt := by
      rw [text, ← Numeral.ofList_spell, String.toList_ofList]
    have hdenotes : Numeral.Denotes (text (literal w)).toList w.toInt := by
      rw [hspell]
      exact Numeral.parse?_eq_some_iff.mp (Numeral.parse?_spell w.toInt)
    have hstands : Lexer.Stands (text (literal w)).toList := by
      rw [hspell]
      exact Lexer.stands_spell w.toInt
    refine (hstands.gives (hdenotes.head?_ne (by decide) (by decide))).imp id fun ts hts => ⟨?_, rfl⟩
    rw [id_eq, hts]
    exact .literal hdenotes
  | apply op l r ihl ihr =>
    have hsign : Lexer.Stands op.sign.toList ∧ op.sign.toList.head? ≠ some ';' := by
      cases op <;> exact ⟨Lexer.stands_of_bare (by decide) (by decide) (by decide) (by decide) (by decide), by decide⟩
    have hmembers : [' '].intercalate [op.sign.toList, l.text.toList, r.text.toList] =
        op.sign.toList ++ ' ' :: (l.text.toList ++ ' ' :: r.text.toList) := by simp [List.intercalate]
    have hgives := (hsign.1.gives hsign.2).blank (ihl.blank ihr)
    rw [← hmembers] at hgives
    rw [toList_text_apply]
    refine (Lexer.Gives.enclose (s := .seq .list) hgives).imp
      (fun q => q.1 :: (q.2.1.1 ++ (q.2.1.2.1 ++ q.2.1.2.2) ++ [q.2.2])) ?_
    rintro ⟨o, ⟨ss, ts, us⟩, c⟩ ⟨ho, ⟨hs, hl, hr⟩, hc⟩
    have hopening : o.text = "(" := String.toList_inj.mp ho
    have hclosing : c.text = ")" := String.toList_inj.mp hc
    refine ⟨?_, rfl⟩
    simpa [hs, hopening, hclosing] using Spells.apply hl hr

/-- The text of a program is one way to write it. -/
theorem spells_text (p : Program) : p.Spells ((content (tokenize p.text)).map Token.text) := by
  obtain ⟨ts, hspells, htokens⟩ := p.gives_text.content
  rw [String.ofList_toList] at htokens
  rwa [htokens]

end Program

/-! ## Running a program -/

/-- An operation on integers is the operation on their words. -/
theorem Operator.apply_int (op : Operator) (a b : Int64) (s t : Option Token) :
    op.apply [.int a s, .int b t] = (op.compute a b).map .ofWord := by
  cases h : op.compute a b <;> simp [apply, Form.operand, Form.asInt?, h, bind, Except.bind, Except.map, pure, Except.pure]

/-- The prelude binds every sign to its operation. -/
theorem Environment.lookup_sign (env : Environment) (serial : Nat) (op : Operator) :
    (env.loadPrelude serial).lookup op.sign = .ok (.builtin (operatorBuiltin serial op.sign op)) := by
  cases op <;> simp [lookup, get?, loadPrelude, defineBuiltin, define, operatorBuiltin, Operator.sign]

/-- Whether every sign is bound to its operation, as in the prelude. -/
def Surroundings.BindsSigns (s : Surroundings World) (serial : Nat) : Prop :=
  ∀ op : Operator, ({ bindings := s.bindings } : Environment).lookup op.sign =
    .ok (.builtin (Environment.operatorBuiltin serial op.sign op))

namespace Program

/-- Whether the outcome of a run is what the program computes. -/
inductive Yields (p : Program) : Except EvalError Form → Prop where
  | value {w : Int64} {token : Option Token} (h : p.compute = .ok w) : Yields p (.ok (.int w token))
  | fault {e : EvalError} (h : p.compute = .error e) : Yields p (.error e)

/-- Applying an operation to the values of its operands gives what the program computes. -/
theorem yields_apply {op : Operator} {l r : Program} {a b : Int64} (hl : l.compute = .ok a) (hr : r.compute = .ok b)
    (s t : Option Token) : (apply op l r).Yields (op.apply [.int a s, .int b t]) := by
  have hcompute : (apply op l r).compute = op.compute a b := by
    rw [compute, hl, hr]
    rfl
  rw [Operator.apply_int]
  cases h : op.compute a b with
  | error e => exact .fault (hcompute.trans h)
  | ok w => exact .value (hcompute.trans h)

/-- A sign is run to its operation. -/
theorem run_sign {s : Surroundings World} {serial depth : Nat} {w : World} (hint : s.host.interrupted w = false)
    (hbound : s.BindsSigns serial) (op : Operator) {token : Option Token}
    (hfits : depth + (Form.symbol op.sign token).height ≤ s.limit) :
    ((Form.symbol op.sign token).run s depth w).result =
      (.ok (.builtin (Environment.operatorBuiltin serial op.sign op)), w) := by
  obtain ⟨hdepth, -⟩ := Form.add_height_le_iff.mp hfits
  rw [Form.run_of_values hint hdepth .nil, Form.combine, hbound]

/-- The run of a form that stands for a program yields what the program computes, where the signs are bound as in the prelude,
there is depth enough and evaluation is not to stop. It leaves the world as it is. -/
theorem Represents.run {p : Program} {f : Form} (h : p.Represents f) {s : Surroundings World} {flag serial depth : Nat}
    {w : World} (hhost : s.host = World.host flag) (hw : w.isRaised flag = false) (hbound : s.BindsSigns serial)
    (hfits : depth + f.height ≤ s.limit) : ∃ outcome, (f.run s depth w).result = (outcome, w) ∧ p.Yields outcome := by
  have hint : s.host.interrupted w = false := by rw [hhost]; exact hw
  induction h generalizing depth with
  | @literal n token =>
    obtain ⟨hdepth, -⟩ := Form.add_height_le_iff.mp hfits
    exact ⟨_, Form.run_of_values hint hdepth .nil, .value rfl⟩
  | @apply op l r x y delims token hl hr ihl ihr =>
    obtain ⟨hdepth, hdeeper⟩ := Form.add_height_le_iff.mp hfits
    obtain ⟨hsign, hx, hy⟩ : _ ∧ _ ∧ _ := by
      simpa only [Form.children, List.forall_mem_cons, List.not_mem_nil, false_imp_iff, implies_true, and_true] using hdeeper
    have hs := run_sign hint hbound op hsign
    obtain ⟨_, hxrun, hxyields⟩ := ihl hx
    obtain ⟨_, hyrun, hyyields⟩ := ihr hy
    cases hxyields with
    | fault ha =>
      refine ⟨_, Form.run_of_fault hint hdepth rfl (.cons hs .nil) hxrun, .fault ?_⟩
      rw [compute, ha]
      rfl
    | @value a t ha =>
      cases hyyields with
      | fault hb =>
        refine ⟨_, Form.run_of_fault hint hdepth rfl (.cons hs (.cons hxrun .nil)) hyrun, .fault ?_⟩
        rw [compute, ha, hb]
        rfl
      | @value b u hb =>
        have hrun := Form.run_of_values hint hdepth (f := .seq .list delims [.symbol op.sign token, x, y])
          (.cons hs (.cons hxrun (.cons hyrun .nil)))
        rw [hhost] at hrun
        exact ⟨_, hrun, yields_apply ha hb t u⟩

/-- What is printed of what a program computes is the answer to it. -/
theorem Yields.print {p : Program} {outcome : Except EvalError Form} (h : p.Yields outcome) :
    (outcome.mapError Error.eval).map (Form.print .readable) = p.answer := by
  have hsettles := p.compute_settles
  unfold answer
  cases h with
  | @value w token h =>
    rw [h] at hsettles
    obtain ⟨hnone, hvalue⟩ := hsettles
    rw [hnone, ← hvalue, ← Numeral.ofList_spell]
    rfl
  | @fault e h =>
    rw [h] at hsettles
    rw [show p.operations.findSome? offence = some e from hsettles]
    rfl

/-- The value of a program in which nothing goes wrong is in range. -/
theorem inRange_value {p : Program} (h : p.operations.findSome? offence = none) : InRange p.value := by
  have hsettles := p.compute_settles
  cases hc : p.compute with
  | error e =>
    rw [hc] at hsettles
    cases h.symm.trans hsettles
  | ok w =>
    rw [hc] at hsettles
    rw [← hsettles.2]
    exact inRange_toInt w

/-- A division of values overflows for one pair of values only. -/
theorem offence_div_iff {l r : Program} (hl : l.operations.findSome? offence = none) :
    (apply .div l r).offence = some .integerOverflow ↔ l.value = -0x8000000000000000 ∧ r.value = -1 := by
  by_cases hzero : r.value = 0
  · simp [offence, hzero]
  · rw [← not_inRange_tdiv_iff (inRange_value hl) hzero]
    by_cases hrange : InRange (l.value.tdiv r.value) <;> simp [offence, value, hzero, hrange]

end Program

/-- A line with a program in it, nested to a depth of 256 at most, has the answer to the program as its result, however the
program is written. The answer is the exact value, or the error of the first operation that goes wrong: a division by zero, or a
value out of range. Of the divisions of values only one overflows. -/
theorem program_answer (serial flag : Nat) (trace : Bool) (w : World) (hw : w.isRaised flag = false) (p : Program)
    (hp : p.nesting ≤ 256) :
    (∀ line, p.Spells ((content (tokenize line)).map Token.text) →
        ((Session.withPrelude serial flag { trace }).evalLine w line).result = p.answer) ∧
      ((Session.withPrelude serial flag { trace }).evalLine w p.text).result = p.answer ∧
      ∀ l r : Program, l.operations.findSome? Program.offence = none →
        ((Program.apply .div l r).offence = some .integerOverflow ↔ l.value = -0x8000000000000000 ∧ r.value = -1) := by
  have hline : ∀ line, p.Spells ((content (tokenize line)).map Token.text) →
      ((Session.withPrelude serial flag { trace }).evalLine w line).result = p.answer := by
    intro line hspells
    obtain ⟨f, hderives, hf⟩ := hspells.exists_derives
    have hread : readText defaultNesting line = .ok f := by
      refine readTokens_eq_ok_iff.mpr ⟨hderives, ?_⟩
      rw [hf.nesting]
      exact hp
    have hfits : 0 + f.height ≤ 1000 := by
      have hheight := f.height_le_nesting_add_one
      rw [hf.nesting] at hheight
      omega
    obtain ⟨outcome, hrun, hyields⟩ := hf.run (s := ⟨World.host flag, 1000, _⟩) rfl hw
      (fun op => Environment.lookup_sign {} serial op) hfits
    have houtcome :
        (f.eval (World.host flag) { trace } ⟨(Session.withPrelude serial flag { trace }).env, w, #[]⟩).1 = outcome := by
      rw [eval_eq_run]
      exact congrArg Prod.fst hrun
    rw [Session.result_evalLine_of_ok hread, ← hyields.print, ← houtcome]
    rfl
  exact ⟨hline, hline p.text p.spells_text, fun l r hl => Program.offence_div_iff hl⟩

/-- A quotient is rounded toward zero, in a line with a leading zero and a comment in it. Where two operations go wrong, the
answer is the error of the first one. -/
theorem program_answer_of_quotients :
    (Session.standard.evalLine {} "(- (/ -7 2) ;odd\n 007)").result = .ok "-10" ∧
      (Session.standard.evalLine {} "(+ (/ -9223372036854775808 -1) (/ 1 0))").result = .error (.eval .integerOverflow) := by
  let p : Program := .apply .sub (.apply .div (.literal (-7)) (.literal 2)) (.literal 7)
  let q : Program := .apply .add (.apply .div (.literal (-9223372036854775808)) (.literal (-1)))
    (.apply .div (.literal 1) (.literal 0))
  constructor
  · have htexts : (content (tokenize "(- (/ -7 2) ;odd\n 007)")).map Token.text =
        ["(", "-", "(", "/", "-7", "2", ")", "007", ")"] := by cbv
    have hspells : p.Spells ((content (tokenize "(- (/ -7 2) ;odd\n 007)")).map Token.text) := by
      rw [htexts]
      have hseven : (Program.literal (-7)).Spells ["-7"] := .literal (Numeral.parse?_eq_some_iff.mp (by cbv))
      have htwo : (Program.literal 2).Spells ["2"] := .literal (Numeral.parse?_eq_some_iff.mp (by cbv))
      exact .apply (.apply hseven htwo) (.literal (Numeral.parse?_eq_some_iff.mp (by cbv)))
    exact (program_answer 0 0 false {} rfl p (by decide)).1 _ hspells
  · have htext : q.text = "(+ (/ -9223372036854775808 -1) (/ 1 0))" := by cbv
    rw [← htext]
    exact (program_answer 0 0 false {} rfl q (by decide)).2.1

end TinyLisp

import TinyLisp.Proofs.Prelude

/-!
# Why evaluation fails

Among operations of arithmetic evaluation makes integers and collections, and nothing else that it was not given. So a property
that these have goes through every value, if it goes through the form and through what is bound. `EvalError.Arises` lists the
errors there are, with what is known of the forms that they name, and `causes_invariant` says both.
-/

namespace TinyLisp

/-- Whether a function is an operation of arithmetic that takes its two operands. -/
def Builtin.IsBinary (b : Builtin) : Prop := b.arity = 2 ∧ ∃ op, b.object.routine = .arithmetic op

/-- A property of forms that all collections and all integers that are computed have, and among functions only operations of
arithmetic. -/
structure Carried (P : Form → Prop) : Prop where
  collection : ∀ f, f.isCollection = true → P f
  ofWord : ∀ w, P (.ofWord w)
  isBinary : ∀ b, P (.builtin b) → b.IsBinary

/-- The errors of evaluation where a property goes through all forms and all functions are operations of arithmetic, for a limit of
depth and an interrupt flag that is raised or not. -/
inductive EvalError.Arises (P : Form → Prop) (limit : Nat) (raised : Prop) : EvalError → Prop where
  | interrupted (h : raised) : Arises P limit raised .interrupted
  | overflow (depth : Nat) : Arises P limit raised (.stackOverflow depth limit)
  | unbound {name : String} {token : Option Token} (h : P (.symbol name token)) : Arises P limit raised (.unboundSymbol name)
  | notCallable {f : Form} (h : f.Throughout P) : Arises P limit raised f.notCallable
  | arity {b : Builtin} (h : P (.builtin b)) (count : Nat) :
    Arises P limit raised (.arityMismatch b.name b.arity.toNat count)
  | operand (got : FormType) : Arises P limit raised (.typeMismatch FormType.int.name got.name)
  | division : Arises P limit raised .divisionByZero
  | range : Arises P limit raised .integerOverflow

/-- A function that does not take so many arguments complains about their number. -/
theorem Builtin.eq_of_checkArity_error {b : Builtin} {count : Nat} {e : EvalError} (h : b.checkArity count = .error e) :
    e = .arityMismatch b.name b.arity.toNat count := by
  unfold checkArity at h
  split at h <;> cases h
  rfl

/-- A binary operation takes two operands. -/
theorem Builtin.IsBinary.exists_operands {b : Builtin} (h : b.IsBinary) {args : List Form}
    (harity : b.checkArity args.length = .ok ()) : ∃ x y, args = [x, y] := by
  unfold checkArity isVariadic at harity
  rw [h.1] at harity
  split at harity
  · next hlen => exact List.length_eq_two.mp (by simpa using hlen)
  · cases harity

/-- A result that is worked on fails by itself or where it is worked on. -/
theorem exists_of_bind_error {α β : Type} {r : Except EvalError α} {next : α → Except EvalError β} {e : EvalError}
    (h : (r >>= next) = .error e) : r = .error e ∨ ∃ v, r = .ok v ∧ next v = .error e := by
  cases r with
  | error e' =>
    cases h
    exact .inl rfl
  | ok v => exact .inr ⟨v, rfl, h⟩

/-- An operand fails where it is no integer. -/
theorem Form.exists_of_operand_error {f : Form} {e : EvalError} (h : f.operand = .error e) :
    ∃ got : FormType, e = .typeMismatch FormType.int.name got.name := by
  unfold operand at h
  split at h <;> cases h
  exact ⟨_, rfl⟩

/-- An operation on words fails with a division by zero or with a result out of range. -/
theorem Operator.compute_error_cases {op : Operator} {a b : Int64} {e : EvalError} (h : op.compute a b = .error e) :
    e = .divisionByZero ∨ e = .integerOverflow := by
  unfold compute at h
  repeat' split at h
  all_goals cases h
  · exact .inl rfl
  · exact .inr rfl

/-- An operation on two forms fails where one of them is no integer, or as it does on words. -/
theorem Operator.apply_error_cases {op : Operator} {x y : Form} {e : EvalError} (h : op.apply [x, y] = .error e) :
    (∃ got : FormType, e = .typeMismatch FormType.int.name got.name) ∨ e = .divisionByZero ∨ e = .integerOverflow := by
  rcases exists_of_bind_error h with hx | ⟨a, -, h⟩
  · exact .inl (Form.exists_of_operand_error hx)
  rcases exists_of_bind_error h with hy | ⟨b, -, h⟩
  · exact .inl (Form.exists_of_operand_error hy)
  rcases exists_of_bind_error h with hc | ⟨w, -, h⟩
  · exact .inr (compute_error_cases hc)
  · cases h

variable {P : Form → Prop}

/-- A binary operation gives an integer, or fails for one of the reasons there are. -/
theorem Carried.settles_apply (hP : Carried P) (limit : Nat) (raised : Prop) (op : Operator) (x y : Form) :
    Settles (Form.Throughout P) (EvalError.Arises P limit raised) (op.apply [x, y]) := by
  cases h : op.apply [x, y] with
  | error e =>
    obtain ⟨got, rfl⟩ | rfl | rfl := Operator.apply_error_cases h
    · exact .operand got
    · exact .division
    · exact .range
  | ok v =>
    obtain ⟨w, rfl⟩ := Operator.eq_ofWord_of_apply h
    exact Form.throughout_of_parts rfl (hP.ofWord w)

/-- Applying a form leaves the world alone, and gives an integer or fails for one of the reasons there are. -/
theorem Carried.apply (hP : Carried P) (limit : Nat) (raised : Prop) {f : Form} (hf : f.Throughout P) (flag : Nat)
    (args : List Form) (w : World) :
    ((World.host flag).apply f args w).2 = w ∧
      Settles (Form.Throughout P) (EvalError.Arises P limit raised) ((World.host flag).apply f args w).1 := by
  cases f with
  | builtin b =>
    rw [Host.apply]
    cases hb : b.checkArity args.length with
    | error e =>
      obtain rfl := Builtin.eq_of_checkArity_error hb
      exact ⟨rfl, .arity hf.self _⟩
    | ok =>
      obtain ⟨x, y, rfl⟩ := (hP.isBinary b hf.self).exists_operands hb
      obtain ⟨-, op, hop⟩ := hP.isBinary b hf.self
      have hrun : (World.host flag).call b [x, y] w = (op.apply [x, y], w) := Builtin.run_arithmetic hop _ w
      rw [hrun]
      exact ⟨rfl, hP.settles_apply limit raised op x y⟩
  | _ => exact ⟨rfl, .notCallable hf⟩

/-- What goes through all that is bound goes through the values of symbols. -/
theorem Environment.settles_lookup_throughout {env : Environment} (h : ∀ b ∈ env.bindings, b.2.Throughout P) (limit : Nat)
    (raised : Prop) {name : String} {token : Option Token} (hs : P (.symbol name token)) :
    Settles (Form.Throughout P) (EvalError.Arises P limit raised) (env.lookup name) := by
  have hfound := Environment.settles_lookup h name
  unfold Environment.lookup at hfound ⊢
  cases hget : env.get? name with
  | none => exact .unbound hs
  | some v =>
    rw [hget] at hfound
    exact hfound

/-- Evaluation carries a property on to values and leaves the world alone, and its errors are those listed. -/
theorem causes_invariant (hP : Carried P) (flag limit : Nat) (w : World) :
    EvalInvariant (World.host flag) limit (fun bindings world => (∀ b ∈ bindings, b.2.Throughout P) ∧ world = w)
      (Form.Throughout P) (Form.Throughout P) (EvalError.Arises P limit (w.isRaised flag = true)) where
  interrupted _ _ hs hint := .interrupted (hs.2 ▸ hint)
  overflow := .overflow
  symbol _ _ _ _ hf hs := Environment.settles_lookup_throughout hs.1 _ _ hf.self
  self _ hf _ _ := hf
  member _ _ _ hf := (Form.throughout_iff.mp hf).2.2
  mapped _ _ hf p hp := (Form.throughout_iff.mp hf).2.2 p.2 (List.mem_map_of_mem hp)
  empty _ := id
  vector _ _ _ _ _ hvs := Form.throughout_iff.mpr ⟨hP.collection _ rfl, nofun, hvs⟩
  map delims pairs entries hf hkeys hes := by
    obtain ⟨-, hks, -⟩ := Form.throughout_iff.mp hf
    refine Form.throughout_iff.mpr ⟨hP.collection _ rfl, ?_, List.forall_mem_map.mpr hes⟩
    rw [Form.keys, hkeys]
    exact hks
  apply _ world _ args hs hf _ := by
    obtain ⟨hw, hout⟩ := hP.apply limit (w.isRaised flag = true) hf flag args world
    exact ⟨⟨hs.1, hw.trans hs.2⟩, hout⟩

namespace Session

/-- Whether a property goes through all that a session has bound. -/
def Carries (s : Session) (P : Form → Prop) : Prop := ∀ b ∈ s.env.bindings, b.2.Throughout P

/-- What the operations of arithmetic have under their signs goes through all that the prelude binds. -/
theorem carries_withPrelude {serial : Nat}
    (h : ∀ name ∈ ["+", "-", "*", "/"], ∀ op, P (.builtin (Environment.operatorBuiltin serial name op))) (flag : Nat)
    (settings : Settings) : (withPrelude serial flag settings).Carries P := by
  intro b hb
  obtain ⟨name, hname, op, heq⟩ := exists_of_mem_prelude serial flag settings b hb
  rw [heq]
  exact Form.throughout_of_parts rfl (h name hname op)

/-- Where a property goes through what is bound and through what is read, a line comes to the report of the reader, to an error of
evaluation that is listed, or to a value through which the property goes. -/
theorem Carries.evalLine_cases {s : Session} (hs : s.Carries P) (hP : Carried P) {line : String}
    (hread : ∀ f, readText defaultNesting line = .ok f → f.Throughout P) (w : World) :
    (∃ e, readText defaultNesting line = .error e ∧ (s.evalLine w line).result = .error (.read e)) ∨
      (∃ f e, readText defaultNesting line = .ok f ∧ (f.eval s.host s.settings ⟨s.env, w, #[]⟩).1 = .error e ∧
        e.Arises P s.settings.maxDepth (w.isRaised s.flag = true) ∧ (s.evalLine w line).result = .error (.eval e)) ∨
      ∃ v : Form, v.Throughout P ∧ (s.evalLine w line).result = .ok (v.print .readable) := by
  cases hr : readText defaultNesting line with
  | error e => exact .inl ⟨e, rfl, result_evalLine_of_error hr s w⟩
  | ok f =>
    have hsettles : Settles (Form.Throughout P) (EvalError.Arises P s.settings.maxDepth (w.isRaised s.flag = true))
        (f.eval s.host s.settings ⟨s.env, w, #[]⟩).1 :=
      ((causes_invariant hP s.flag s.settings.maxDepth w).eval (hread f hr) ⟨s.env, w, #[]⟩ ⟨hs, rfl⟩).2.2
    have hresult := result_evalLine_of_ok hr s w
    cases hv : (f.eval s.host s.settings ⟨s.env, w, #[]⟩).1 with
    | error e =>
      rw [hv] at hsettles hresult
      exact .inr (.inl ⟨f, e, rfl, hv, hsettles, hresult⟩)
    | ok v =>
      rw [hv] at hsettles hresult
      exact .inr (.inr ⟨v, hsettles, hresult⟩)

end Session

end TinyLisp

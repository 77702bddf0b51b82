import TinyLisp.Form.Map
import TinyLisp.Word

/-!
# Arithmetic

The four operations compute on the mathematical integers and refuse a result that no 64-bit integer has. Division drops the
fraction, so it goes toward zero. `Operator.compute_eq_ok_iff` says that a result is the exact one.
-/

namespace TinyLisp

/-- The exact result of an operation, when its right operand is allowed. -/
def Operator.exact : Operator → Int → Int → Int
  | .add, a, b => a + b
  | .sub, a, b => a - b
  | .mul, a, b => a * b
  | .div, a, b => a.tdiv b

/-- The result of an operation on 64-bit integers. A divisor of zero is refused before anything else. -/
def Operator.compute (op : Operator) (a b : Int64) : Except EvalError Int64 :=
  if op = .div ∧ b = 0 then .error .divisionByZero
  else
    match toWord? (op.exact a.toInt b.toInt) with
    | some w => .ok w
    | none => .error .integerOverflow

/-- An operation gives a result exactly when it does not divide by zero, and then its exact result. -/
theorem Operator.compute_eq_ok_iff {op : Operator} {a b w : Int64} :
    op.compute a b = .ok w ↔ ¬(op = .div ∧ b = 0) ∧ w.toInt = op.exact a.toInt b.toInt := by
  unfold Operator.compute
  split
  · next h => simp [h]
  · next h =>
    rw [← toWord?_eq_some_iff]
    cases toWord? (op.exact a.toInt b.toInt) <;> simp [h]

/-- The value of an operand, which has to be an integer. -/
def Form.operand (f : Form) : Except EvalError Int64 :=
  match f.asInt? with
  | some w => .ok w
  | none => .error (.typeMismatch FormType.int.name f.type.name)

/-- An operation on forms. It takes two operands, and looks at the left one first. -/
def Operator.apply (op : Operator) : List Form → Except EvalError Form
  | [a, b] => do
    let a ← a.operand
    let b ← b.operand
    let result ← op.compute a b
    pure (.ofWord result)
  | args =>
    .error (.builtinFailure "arithmetic" ("expected 2 operands, got " ++ Numeral.text args.length))

/-- An integer with a constant added to it. Another form stays as it is, or is refused where only integers are wanted. -/
def Form.shift (constant : Int64) (strict : Bool) (f : Form) : Except EvalError Form :=
  match f.asInt? with
  | some w => (Operator.add.compute w constant).map .ofWord
  | none => if strict then .error (.typeMismatch FormType.int.name f.type.name) else .ok f

/-- A collection with a constant added to its integers, as far as that goes without an error, and the number of members or
values that were looked at. -/
def Form.shiftAll (constant : Int64) (strict : Bool) (f : Form) : Except EvalError Form × Nat :=
  let act : Form → ExceptT EvalError (StateM Nat) Form := fun g seen => (g.shift constant strict, seen + 1)
  f.traverse act 0

end TinyLisp

import TinyLisp.Routine

/-!
# What routines leave alone

Routines know nothing of the depth of evaluation and of interrupt flags: whatever they fail with, it is no overflow
(`Builtin.run_ne_overflow`), and of the world they change the ticks only (`Builtin.raised_run`).
-/

namespace TinyLisp

/-- A function that does not take a number of arguments complains about that number. -/
theorem Builtin.checkArity_ne_overflow (b : Builtin) (count depth limit : Nat) :
    b.checkArity count ≠ .error (.stackOverflow depth limit) := by
  unfold checkArity
  split <;> nofun

/-- A computation has no error that no part of it has. -/
theorem bind_ne_error {ε α β : Type} {x : Except ε α} {next : α → Except ε β} {e : ε} (hx : x ≠ .error e)
    (hnext : ∀ a, next a ≠ .error e) : (x >>= next) ≠ .error e := by
  cases x with
  | error e' => exact fun h => hx (congrArg Except.error (Except.error.inj h))
  | ok a => exact hnext a

/-- Operations of arithmetic have errors of their own only. -/
theorem Operator.apply_ne_overflow (op : Operator) (args : List Form) (depth limit : Nat) :
    op.apply args ≠ .error (.stackOverflow depth limit) := by
  have hoperand : ∀ f : Form, f.operand ≠ .error (.stackOverflow depth limit) := by
    intro f
    unfold Form.operand
    split <;> nofun
  have hcompute : ∀ x y, op.compute x y ≠ .error (.stackOverflow depth limit) := by
    intro x y
    unfold Operator.compute
    split
    · nofun
    · split <;> nofun
  unfold Operator.apply
  split
  · exact bind_ne_error (hoperand _) fun x => bind_ne_error (hoperand _) fun y => bind_ne_error (hcompute x y) nofun
  · nofun

/-- Routines have errors of their own only, and `call` has those of the function that it applies. -/
theorem Builtin.run_ne_overflow (b : Builtin) (args : List Form) (w : World) (depth limit : Nat) :
    (b.run args w).1 ≠ .error (.stackOverflow depth limit) := by
  have hfirst : ∀ (c : Builtin) (as : List Form) (g : Form → Form),
      (Routine.firstArgument c as).map g ≠ .error (.stackOverflow depth limit) := by
    intro c as g
    cases as <;> nofun
  fun_induction Builtin.run b args w with
  | case1 args b op h => exact op.apply_ne_overflow args depth limit
  | case5 args b h => cases args <;> nofun
  | case6 args b h => exact hfirst b args _
  | case7 args b h => exact hfirst b args _
  | case8 args b h =>
    unfold Routine.mapOf
    split <;> nofun
  | case9 args b h =>
    unfold Routine.valueAt
    split
    · split <;> nofun
    · nofun
  | case11 b h f args e harity =>
    intro he
    cases he
    exact f.checkArity_ne_overflow _ _ _ harity
  | case12 b h f args harity ih => exact ih
  | _ => nofun

/-- Routines leave interrupt flags alone. -/
theorem Builtin.raised_run (b : Builtin) (args : List Form) (w : World) : (b.run args w).2.raised = w.raised := by
  fun_induction Builtin.run b args w with
  | case12 b h f args harity ih => exact ih
  | _ => rfl

end TinyLisp

import TinyLisp.Arithmetic
import TinyLisp.Eval.Machine
import TinyLisp.Form.Map
import TinyLisp.World

/-!
# What functions do

A routine takes arguments and the world, and gives a result and the world after it. `call` applies its first argument to the
others, so a function may call another with fewer arguments than it was given, and that bounds how often this happens.
`Builtin.run_call` says that this is an application like any other.
-/

namespace TinyLisp

/-- The failure that a function reports under its own name. -/
def Builtin.failure (b : Builtin) (message : String) : EvalError := .builtinFailure b.name message

namespace Routine

/-- The first argument of a function, or its complaint that there is none. -/
def firstArgument (b : Builtin) : List Form → Except EvalError Form
  | [] => .error (b.failure "no argument")
  | f :: _ => .ok f

/-- The map of alternating keys and values, or what is wrong with them as a failure of the function. -/
def mapOf (b : Builtin) (args : List Form) : Except EvalError Form :=
  match Form.ofAlternating args with
  | .ok f => .ok f
  | .error e => .error (b.failure e.message)

/-- The value that a map has under a key, or the failure of the function. -/
def valueAt (b : Builtin) : List Form → Except EvalError Form
  | .map _ pairs :: key :: _ =>
    match Form.lookup? pairs key with
    | some v => .ok v
    | none => .error (b.failure "missing key")
  | _ => .error (b.failure "bad arguments")

end Routine

/-- The result of calling a function, whose arity is not checked, and the world after it. -/
def Builtin.run (b : Builtin) (args : List Form) (w : World) : Except EvalError Form × World :=
  match b.object.routine with
  | .arithmetic op => (op.apply args, w)
  | .list => (.ok (.list args), w)
  | .vector => (.ok (.vector args), w)
  | .count => (.ok (.ofWord (Int64.ofInt args.length)), w)
  | .first => (Routine.firstArgument b args, w)
  | .typeName => ((Routine.firstArgument b args).map fun f => .ofString f.type.name, w)
  | .print => ((Routine.firstArgument b args).map fun f => .ofString (f.print .readable), w)
  | .map => (Routine.mapOf b args, w)
  | .get => (Routine.valueAt b args, w)
  | .call =>
    match args with
    | [] => (.error (b.failure "no argument"), w)
    | .builtin f :: rest =>
      match f.checkArity rest.length with
      | .error e => (.error e, w)
      | .ok () => f.run rest w
    | f :: _ => (.error f.notCallable, w)
  | .tick => (.ok (.ofWord (Int64.ofInt (w.ticksOf b.object.serial))), w.tick b.object.serial)
  | .fail message => (.error (b.failure message), w)
  termination_by structural args

/-- The host that runs every function by its routine and stops where the given flag is raised. -/
def World.host (flag : Nat) : Host World where
  call := Builtin.run
  interrupted w := w.isRaised flag

/-- The routine `call` applies its first argument to the others, as an application does. -/
theorem Builtin.run_call {b : Builtin} (h : b.object.routine = .call) (flag : Nat) (f : Form) (args : List Form)
    (w : World) :
    b.run (f :: args) w = (World.host flag).apply f args w := by
  unfold Builtin.run
  rw [h]
  cases f <;> rfl

end TinyLisp

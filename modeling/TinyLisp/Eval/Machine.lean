import TinyLisp.Environment
import TinyLisp.Eval.Trace

/-!
# The machine that evaluation runs on

Evaluation is given a host, which knows what functions do and whether evaluation is to stop. What functions may change is the
state of the host, and evaluation only carries it along. An action on the machine changes it and gives a value or an error;
what was changed before an error stays changed.
-/

namespace TinyLisp

/-- How evaluation is to be done. -/
structure Settings where
  maxDepth : Nat := 1000
  trace : Bool := false
  deriving DecidableEq, Repr

/-- What evaluation needs from outside: the effect of calling a function, and the interrupt flag. -/
structure Host (σ : Type) where
  call : Builtin → List Form → σ → Except EvalError Form × σ
  interrupted : σ → Bool

/-- The state of an evaluation: the environment, the state of the host and the trace so far. -/
structure Machine (σ : Type) where
  env : Environment
  world : σ
  trace : Array Event

/-- A change of the machine that gives a value or an error. -/
abbrev Action (σ α : Type) : Type := ExceptT EvalError (StateM (Machine σ)) α

namespace Machine

variable {σ : Type}

/-- The machine after an event, which is kept only where a trace is wanted. -/
def record (m : Machine σ) (settings : Settings) (e : Event) : Machine σ :=
  if settings.trace then { m with trace := m.trace.push e } else m

/-- Recording an event does not touch the environment. -/
@[simp] theorem env_record (m : Machine σ) (settings : Settings) (e : Event) : (m.record settings e).env = m.env := by
  unfold record
  split <;> rfl

/-- Recording an event does not touch the state of the host. -/
@[simp] theorem world_record (m : Machine σ) (settings : Settings) (e : Event) :
    (m.record settings e).world = m.world := by
  unfold record
  split <;> rfl

end Machine

/-- Whether a function takes the given number of arguments; otherwise the complaint. -/
def Builtin.checkArity (b : Builtin) (count : Nat) : Except EvalError Unit :=
  if b.isVariadic ∨ count = b.arity.toNat then .ok () else .error (.arityMismatch b.name b.arity.toNat count)

/-- How a form is quoted that stands in the place of a function and is none: as it was read, or else readably printed. -/
def Form.literal (f : Form) : String := f.sourceText?.getD (f.print .readable)

/-- The complaint about a form that is no function. -/
def Form.notCallable (f : Form) : EvalError := .notCallable f.literal

variable {σ : Type}

/-- The result of applying a form to arguments, and the state of the host after it. -/
def Host.apply (host : Host σ) (f : Form) (args : List Form) (world : σ) : Except EvalError Form × σ :=
  match f with
  | .builtin b =>
    match b.checkArity args.length with
    | .error e => (.error e, world)
    | .ok () => host.call b args world
  | f => (.error f.notCallable, world)

namespace Action

/-- Applies a form to arguments. -/
def apply (host : Host σ) (f : Form) (args : List Form) : Action σ Form := fun m =>
  let (result, world) := host.apply f args m.world
  (result, { m with world })

/-- Finds the value of a symbol. -/
def lookup (name : String) : Action σ Form := fun m => (m.env.lookup name, m)

/-- Does the work of evaluating a form one level deeper, and comes back whatever the work leads to. Nothing is done where
evaluation is to stop or where the limit of depth has been reached. -/
def within (host : Host σ) (settings : Settings) (f : Form) (work : Action σ Form) : Action σ Form := fun m =>
  if host.interrupted m.world then (.error .interrupted, m)
  else
    match m.env.enterCall settings.maxDepth with
    | .error e => (.error e, m)
    | .ok env =>
      match work ({ m with env }.record settings (.enter m.env.depth f)) with
      | (.error e, m') => (.error e, { m' with env := m'.env.exitCall })
      | (.ok v, m') => (.ok v, { m' with env := m'.env.exitCall }.record settings (.exit m.env.depth v))

end Action

end TinyLisp

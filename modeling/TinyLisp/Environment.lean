import TinyLisp.Form.Basic

/-!
# Environments

An environment holds the definitions made so far and counts how deeply evaluation is nested. A name may be defined any number
of times; the definitions stay, and the latest one is found. The prelude binds the signs of arithmetic.
-/

namespace TinyLisp

/-- Definitions, latest first, and the depth of evaluation. -/
structure Environment where
  bindings : List (String × Form) := []
  depth : Nat := 0

namespace Environment

/-- The number of definitions. -/
def size (env : Environment) : Nat := env.bindings.length

/-- Whether nothing is defined. -/
def isEmpty (env : Environment) : Bool := env.bindings.isEmpty

/-- The environment after a definition. -/
def define (env : Environment) (name : String) (value : Form) : Environment :=
  { env with bindings := (name, value) :: env.bindings }

/-- The environment after the definition of a function under its own name. -/
def defineBuiltin (env : Environment) (b : Builtin) : Environment := env.define b.name (.builtin b)

/-- The value that a name was defined as last. -/
def get? (env : Environment) (name : String) : Option Form := (env.bindings.find? (·.1 == name)).map (·.2)

/-- The value of a symbol, or the complaint that it has none. -/
def lookup (env : Environment) (name : String) : Except EvalError Form :=
  match env.get? name with
  | some value => .ok value
  | none => .error (.unboundSymbol name)

/-- The environment one level deeper, unless the limit has been reached. -/
def enterCall (env : Environment) (limit : Nat) : Except EvalError Environment :=
  if limit ≤ env.depth then .error (.stackOverflow env.depth limit) else .ok { env with depth := env.depth + 1 }

/-- The environment one level higher; the highest level is zero. -/
def exitCall (env : Environment) : Environment := { env with depth := env.depth - 1 }

/-- A sign of arithmetic as a function of two arguments, made with the given serial number. -/
def operatorBuiltin (serial : Nat) (name : String) (op : Operator) : Builtin := ⟨name, 2, ⟨.arithmetic op, serial⟩⟩

/-- The environment after the definitions of the prelude, whose functions get the given serial number. -/
def loadPrelude (env : Environment) (serial : Nat) : Environment :=
  (((env.defineBuiltin (operatorBuiltin serial "+" .add)).defineBuiltin (operatorBuiltin serial "-" .sub)).defineBuiltin
    (operatorBuiltin serial "*" .mul)).defineBuiltin (operatorBuiltin serial "/" .div)

/-- A name is found as what it was just defined as. -/
theorem get?_define_self (env : Environment) (name : String) (value : Form) :
    (env.define name value).get? name = some value := by simp [define, get?]

/-- A definition does not change what other names are found as. -/
theorem get?_define_of_ne {name other : String} (h : name ≠ other) (env : Environment) (value : Form) :
    (env.define name value).get? other = env.get? other := by simp [define, get?, h]

/-- Going one level deeper and back leads to where one was. -/
theorem exitCall_of_enterCall {env deeper : Environment} {limit : Nat} (h : env.enterCall limit = .ok deeper) :
    deeper.exitCall = env := by
  unfold enterCall at h
  split at h <;> cases h
  simp [exitCall]

end Environment

end TinyLisp

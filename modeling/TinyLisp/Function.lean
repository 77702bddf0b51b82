/-!
# Functions

A builtin is a name, an arity and a function object. The object says which routine the function runs and carries a serial
number, so that two functions made at different times are different although they run the same routine. Builtins are the
same when they agree on name and object: what a copy of a builtin shares with it is the object.
-/

namespace TinyLisp

/-- The four operations of arithmetic. -/
inductive Operator where
  | add
  | sub
  | mul
  | div
  deriving DecidableEq, Repr

/-- What a function does with its arguments. -/
inductive Routine where
  /-- Computes with two integers. -/
  | arithmetic (op : Operator)
  /-- Collects the arguments in a list. -/
  | list
  /-- Collects the arguments in a vector. -/
  | vector
  /-- Counts the arguments. -/
  | count
  /-- Gives the first argument. -/
  | first
  /-- Names the type of the first argument. -/
  | typeName
  /-- Prints the first argument readably. -/
  | print
  /-- Makes a map of alternating keys and values. -/
  | map
  /-- Looks up the second argument in the first. -/
  | get
  /-- Applies the first argument to the others. -/
  | call
  /-- Counts how often it has been called before. -/
  | tick
  /-- Fails with a message. -/
  | fail (message : String)
  deriving DecidableEq, Repr

/-- A routine, made once and told apart from others of its kind by a serial number. -/
structure FunctionObject where
  routine : Routine
  serial : Nat
  deriving DecidableEq, Repr

/-- A function under a name. A negative arity stands for any number of arguments. -/
structure Builtin where
  name : String
  arity : Int
  object : FunctionObject
  deriving DecidableEq, Repr

namespace Builtin

/-- Whether the function takes any number of arguments. -/
def isVariadic (b : Builtin) : Bool := b.arity < 0

/-- Whether two builtins are the same function under the same name. -/
def same (a b : Builtin) : Bool := a.name == b.name && a.object == b.object

/-- Sameness is agreement on name and object. -/
theorem same_iff {a b : Builtin} : a.same b = true ↔ a.name = b.name ∧ a.object = b.object := by simp [same]

end Builtin

end TinyLisp

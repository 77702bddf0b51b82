import TinyLisp.Form.Printer

/-!
# The trace of an evaluation

A traced evaluation leaves an event where the evaluation of a form begins and one where it ends with a value. An event is
written on a line of its own, indented by twice its depth.
-/

namespace TinyLisp

/-- A step of an evaluation that a trace shows. -/
inductive Event where
  /-- The evaluation of a form begins. -/
  | enter (depth : Nat) (form : Form)
  /-- The evaluation of a form ends with a value. -/
  | exit (depth : Nat) (value : Form)

/-- How an event is written, its newline included. -/
def Event.spell : Event → List Char
  | .enter depth form => List.replicate (2 * depth) ' ' ++ "eval: ".toList ++ form.spell .readable ++ ['\n']
  | .exit depth value => List.replicate (2 * depth) ' ' ++ "  => ".toList ++ value.spell .readable ++ ['\n']

/-- The text of a trace. -/
def traceText (events : List Event) : String := String.ofList (events.flatMap Event.spell)

end TinyLisp

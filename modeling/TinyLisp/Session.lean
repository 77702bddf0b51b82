import TinyLisp.Eval.Basic
import TinyLisp.Form.Reader
import TinyLisp.Routine

/-!
# Sessions

A session is an environment, the settings to evaluate in it and the interrupt flag that it watches. Work in a session leaves
a session, and also the world, which other sessions share, and a trace. A line is one form: it is read, evaluated and printed
readably, or only read and printed.
-/

namespace TinyLisp

/-- Where lines are evaluated. -/
structure Session where
  env : Environment
  settings : Settings := {}
  flag : Nat := 0

/-- What work in a session leads to: its result, and what it leaves behind. -/
structure Answer (α : Type) where
  result : Except Error α
  session : Session
  world : World
  trace : List Event

/-- The answer with its result changed. -/
def Answer.map {α β : Type} (g : α → β) (a : Answer α) : Answer β := ⟨a.result.map g, a.session, a.world, a.trace⟩

namespace Session

variable {α : Type}

/-- A session with the prelude, whose functions get the given serial number. -/
def withPrelude (serial flag : Nat) (settings : Settings) : Session :=
  ⟨({} : Environment).loadPrelude serial, settings, flag⟩

/-- A session without definitions. -/
def empty (flag : Nat) (settings : Settings) : Session := ⟨{}, settings, flag⟩

/-- The session with the prelude and the default settings. -/
def standard : Session := withPrelude 0 0 {}

/-- The host of a session. -/
def host (s : Session) : Host World := World.host s.flag

/-- The answer that leaves everything as it was. -/
def still (s : Session) (w : World) (result : Except Error α) : Answer α := ⟨result, s, w, []⟩

/-- Performs an action on the environment of a session. -/
def perform (s : Session) (w : World) (act : Action World α) : Answer α :=
  let (result, m) := act ⟨s.env, w, #[]⟩
  ⟨result.mapError .eval, { s with env := m.env }, m.world, m.trace.toList⟩

/-- Evaluates a form. -/
def eval (s : Session) (w : World) (f : Form) : Answer Form := s.perform w (f.eval s.host s.settings)

/-- Evaluates the parts of a form. -/
def evalParts (s : Session) (w : World) (f : Form) : Answer Form := s.perform w (f.evalParts s.host s.settings)

/-- Applies a form to arguments. -/
def apply (s : Session) (w : World) (f : Form) (args : List Form) : Answer Form :=
  s.perform w (Action.apply s.host f args)

/-- Reads, evaluates and prints a line. -/
def evalLine (s : Session) (w : World) (line : String) : Answer String :=
  match readText defaultNesting line with
  | .error e => s.still w (.error (.read e))
  | .ok f => (s.eval w f).map (Form.print .readable)

/-- Reads and prints a line. -/
def echoLine (line : String) : Except Error String :=
  ((readText defaultNesting line).map (Form.print .readable)).mapError .read

end Session

end TinyLisp

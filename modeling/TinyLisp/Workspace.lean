import TinyLisp.Session

/-!
# Workspaces

A workspace holds sessions under names, the world they share and the private keyword tables. It hands out serial numbers, so
that every function made in it is different from the others, and interrupt flags, one for each session that is opened; a
copy of a session watches the flag of the session it was copied from. What is done in one session is a command.
-/

namespace TinyLisp

/-- What a session may be told to do. -/
inductive Command where
  | define (name : String) (value : Form)
  | defineBuiltin (function : Builtin)
  | loadPrelude
  | eval (form : Form)
  | evalParts (form : Form)
  | apply (head : Form) (args : List Form)
  /-- Calls a function without a look at its arity. -/
  | run (function : Builtin) (args : List Form)
  | evalLine (line : String)
  | echoLine (line : String)
  | get (name : String)
  | lookup (name : String)
  | enterCall (limit : Nat)
  | exitCall
  /-- Changes the settings that are given. -/
  | configure (maxDepth : Option Nat) (trace : Option Bool)
  | interrupt
  | resetInterrupt
  | isInterrupted

/-- Whether a command works with forms or lines, so that a trace belongs to its report. -/
def Command.isTraced : Command → Bool
  | .eval _ => true
  | .evalParts _ => true
  | .apply .. => true
  | .run .. => true
  | .evalLine _ => true
  | .echoLine _ => true
  | _ => false

/-- What a command gives. -/
inductive Outcome where
  | done
  | form (value : Form)
  | binding (value : Option Form)
  | text (value : String)
  | flag (value : Bool)

namespace Session

/-- The session with the settings changed that are given. -/
def configure (s : Session) (maxDepth : Option Nat) (trace : Option Bool) : Session :=
  { s with settings := ⟨maxDepth.getD s.settings.maxDepth, trace.getD s.settings.trace⟩ }

/-- The session with another environment. -/
def withEnv (s : Session) (env : Environment) : Session := { s with env }

/-- The answer to a command. Functions that are made on the way get the given serial number. -/
def obey (s : Session) (w : World) (serial : Nat) : Command → Answer Outcome
  | .define name value => (s.withEnv (s.env.define name value)).still w (.ok .done)
  | .defineBuiltin b => (s.withEnv (s.env.defineBuiltin b)).still w (.ok .done)
  | .loadPrelude => (s.withEnv (s.env.loadPrelude serial)).still w (.ok .done)
  | .eval f => (s.eval w f).map .form
  | .evalParts f => (s.evalParts w f).map .form
  | .apply f args => (s.apply w f args).map .form
  | .run b args => (s.perform w fun m => ((b.run args m.world).1, { m with world := (b.run args m.world).2 })).map .form
  | .evalLine line => (s.evalLine w line).map .text
  | .echoLine line => (s.still w (echoLine line)).map .text
  | .get name => s.still w (.ok (.binding (s.env.get? name)))
  | .lookup name => (s.perform w (Action.lookup name)).map .form
  | .enterCall limit =>
    match s.env.enterCall limit with
    | .ok env => (s.withEnv env).still w (.ok .done)
    | .error e => s.still w (.error (.eval e))
  | .exitCall => (s.withEnv s.env.exitCall).still w (.ok .done)
  | .configure maxDepth trace => (s.configure maxDepth trace).still w (.ok .done)
  | .interrupt => s.still (w.raise s.flag) (.ok .done)
  | .resetInterrupt => s.still (w.lower s.flag) (.ok .done)
  | .isInterrupted => s.still w (.ok (.flag (w.isRaised s.flag)))

end Session

/-- Sessions by name, what they share, the private keyword tables, and the serial number and interrupt flag given out
next. -/
structure Workspace where
  sessions : List (String × Session)
  world : World := {}
  tables : List (String × KeywordTable) := []
  nextSerial : Nat
  nextFlag : Nat

/-- The value under a name in a list of names and values. -/
def named? {α : Type} (items : List (String × α)) (name : String) : Option α := (items.find? (·.1 == name)).map (·.2)

/-- The list with a value put under a name, in the place of the one that was there. -/
def putNamed {α : Type} (items : List (String × α)) (name : String) (value : α) : List (String × α) :=
  (name, value) :: items.filter (·.1 != name)

/-- A value is found under the name it was put under. -/
theorem named?_putNamed_self {α : Type} (items : List (String × α)) (name : String) (value : α) :
    named? (putNamed items name value) name = some value := by simp [named?, putNamed]

/-- Putting a value under a name does not touch other names. -/
theorem named?_putNamed_of_ne {α : Type} {name other : String} (h : name ≠ other) (items : List (String × α)) (value : α) :
    named? (putNamed items name value) other = named? items other := by
  simp only [named?, putNamed]
  rw [List.find?_cons_of_neg (by simpa using h), List.find?_filter]
  congr 2
  funext p
  by_cases hp : p.1 = other <;> simp_all [Ne.symm h]

namespace Workspace

/-- The workspace in which the standard session has the given name and nothing else has happened. -/
def start (name : String) : Workspace := ⟨[(name, .standard)], {}, [], 1, 1⟩

/-- The session of a name. -/
def session? (ws : Workspace) (name : String) : Option Session := named? ws.sessions name

/-- The report on a command: what it gave or why it failed, and the trace, if one belongs to it. -/
structure Report where
  result : Except Error Outcome
  trace : Option (List Event)

/-- The workspace after a command to the session of a name, with the report; nothing where there is no such session. -/
def tell (ws : Workspace) (name : String) (c : Command) : Option (Report × Workspace) :=
  (ws.session? name).map fun s =>
    let a := s.obey ws.world ws.nextSerial c
    (⟨a.result, if s.settings.trace && c.isTraced then some a.trace else none⟩,
      { ws with
        sessions := putNamed ws.sessions name a.session
        world := a.world
        nextSerial := ws.nextSerial + 1 })

/-- The workspace with a new session under a name, with or without the prelude. -/
def openSession (ws : Workspace) (name : String) (prelude : Bool) (settings : Settings) : Workspace :=
  let s := if prelude then Session.withPrelude ws.nextSerial ws.nextFlag settings else Session.empty ws.nextFlag settings
  { ws with
    sessions := putNamed ws.sessions name s
    nextSerial := ws.nextSerial + 1
    nextFlag := ws.nextFlag + 1 }

/-- The workspace with a copy of a session under another name; nothing where there is no such session. -/
def fork (ws : Workspace) (source target : String) : Option Workspace :=
  (ws.session? source).map fun s => { ws with sessions := putNamed ws.sessions target s }

/-- A new function, different from every other one made in the workspace. -/
def makeBuiltin (ws : Workspace) (name : String) (arity : Int) (routine : Routine) : Builtin × Workspace :=
  (⟨name, arity, ⟨routine, ws.nextSerial⟩⟩, { ws with nextSerial := ws.nextSerial + 1 })

/-- The private keyword table of a name, which is empty before anything is interned in it. -/
def table (ws : Workspace) (name : String) : KeywordTable := (named? ws.tables name).getD ⟨.named name, []⟩

/-- A keyword of a private table. -/
def internIn (ws : Workspace) (tableName name : String) : Keyword × Workspace :=
  let (k, t) := (ws.table tableName).intern name
  (k, { ws with tables := putNamed ws.tables tableName t })

end Workspace

end TinyLisp

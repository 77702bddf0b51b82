import Mathlib
import TinyLisp.Proofs.Balance
import TinyLisp.Workspace

/-!
# Histories of sessions

Sessions are opened, copied and told to do things, in any order and on any hosts. The past of a session is what it was told, and
before that, if it is a copy, what the session was told that it was copied from. `named?_run` says that a session is what its own
past makes of it, so nothing of the other sessions reaches it. `latest_definition_wins` says what that means for names: a name is
found as what it was defined as last in that past, whatever was evaluated in between and whatever came of it. The sessions of a
workspace are those of such a run (`Workspace.Reachable.exists_runs`).
-/

namespace TinyLisp

variable {σ : Type}

/-! ## Definitions in order -/

/-- Whether a value is what a name is defined as last, by definitions in order. -/
def LastDefined (defs : List (String × Form)) (name : String) (value : Form) : Prop :=
  ∃ before after, defs = before ++ (name, value) :: after ∧ ∀ d ∈ after, d.1 ≠ name

namespace Environment

variable {env : Environment} {defs : List (String × Form)} {name : String}

/-- A name is found as what it was defined as last. -/
theorem get?_eq_some_iff (h : env.bindings = defs.reverse) {value : Form} :
    env.get? name = some value ↔ LastDefined defs name value := by
  rw [get?, h, Option.map_eq_some_iff]
  constructor
  · rintro ⟨⟨n, v⟩, hfind, rfl⟩
    obtain ⟨hname, later, earlier, hsplit, hlater⟩ := List.find?_eq_some_iff_append.mp hfind
    obtain rfl : n = name := by simpa using hname
    refine ⟨earlier.reverse, later.reverse, ?_, fun d hd => ?_⟩
    · rw [← List.reverse_reverse defs, hsplit]
      simp
    · simpa using hlater d (List.mem_reverse.mp hd)
  · rintro ⟨before, after, rfl, hafter⟩
    refine ⟨(name, value), List.find?_eq_some_iff_append.mpr ⟨by simp, after.reverse, before.reverse, by simp, ?_⟩, rfl⟩
    intro d hd
    simpa using hafter d (List.mem_reverse.mp hd)

/-- A name that was never defined is not found. -/
theorem get?_eq_none_iff (h : env.bindings = defs.reverse) : env.get? name = none ↔ ∀ d ∈ defs, d.1 ≠ name := by
  rw [get?, h, Option.map_eq_none_iff, List.find?_eq_none]
  simp

/-- A symbol has no value exactly when its name is not found. -/
theorem lookup_eq_error_iff : env.lookup name = .error (.unboundSymbol name) ↔ env.get? name = none := by
  unfold lookup
  cases env.get? name <;> simp

/-- The definitions of the prelude in order. -/
def preludeDefinitions (serial : Nat) : List (String × Form) :=
  [("+", .builtin (operatorBuiltin serial "+" .add)), ("-", .builtin (operatorBuiltin serial "-" .sub)),
    ("*", .builtin (operatorBuiltin serial "*" .mul)), ("/", .builtin (operatorBuiltin serial "/" .div))]

end Environment

/-! ## Commands -/

/-- The definitions that a command makes, in order, where functions that are made get the given serial number. -/
def Command.definitions (serial : Nat) : Command → List (String × Form)
  | .define name value => [(name, value)]
  | .defineBuiltin b => [(b.name, .builtin b)]
  | .loadPrelude => Environment.preludeDefinitions serial
  | _ => []

/-- A command and what it meets: a host, the state of the host, and the serial number for functions that are made. -/
structure Deed (σ : Type) where
  host : Host σ
  world : σ
  serial : Nat
  command : Command

/-- The definitions that are made. -/
def Deed.definitions (d : Deed σ) : List (String × Form) := d.command.definitions d.serial

namespace Session

/-- The session with the environment that an action leaves. -/
def leaving {α : Type} (s : Session) (d : Deed σ) (act : Action σ α) : Session :=
  s.withEnv (act ⟨s.env, d.world, #[]⟩).2.env

/-- The session after a command on any host. -/
def after (s : Session) (d : Deed σ) : Session :=
  match d.command with
  | .define name value => s.withEnv (s.env.define name value)
  | .defineBuiltin b => s.withEnv (s.env.defineBuiltin b)
  | .loadPrelude => s.withEnv (s.env.loadPrelude d.serial)
  | .eval f => s.leaving d (f.eval d.host s.settings)
  | .evalParts f => s.leaving d (f.evalParts d.host s.settings)
  | .apply f args => s.leaving d (Action.apply d.host f args)
  | .run b args => s.leaving d fun m => ((d.host.call b args m.world).1, { m with world := (d.host.call b args m.world).2 })
  | .evalLine line => s.withEnv (d.host.evalLine s.settings line ⟨s.env, d.world, #[]⟩).2.env
  | .lookup name => s.leaving d (Action.lookup name)
  | .enterCall limit => ((s.env.enterCall limit).map s.withEnv).toOption.getD s
  | .exitCall => s.withEnv s.env.exitCall
  | .configure maxDepth trace => s.configure maxDepth trace
  | .echoLine _ | .get _ | .interrupt | .resetInterrupt | .isInterrupted => s

/-- A session that answers a command leaves the session that the command leaves on its own host. -/
theorem session_obey (s : Session) (w : World) (serial : Nat) (c : Command) :
    (s.obey w serial c).session = s.after ⟨s.host, w, serial, c⟩ := by
  cases c with
  | evalLine line => simp only [obey, after, evalLine_eq, Answer.map, withEnv]
  | enterCall limit =>
    simp only [obey, after]
    cases s.env.enterCall limit <;> rfl
  | _ => rfl

/-- An action that keeps the environment leaves the session. -/
theorem leaving_eq {α : Type} {act : Action σ α} (h : act.KeepsEnv) (s : Session) (d : Deed σ) : s.leaving d act = s := by
  rw [leaving, h]
  rfl

/-- A command adds its definitions to what is bound, and does nothing else to it. -/
theorem bindings_after (s : Session) (d : Deed σ) :
    (s.after d).env.bindings = d.definitions.reverse ++ s.env.bindings := by
  obtain ⟨host, world, serial, c⟩ := d
  have hkept : ∀ {α : Type} {act : Action σ α}, act.KeepsEnv →
      (s.leaving ⟨host, world, serial, c⟩ act).env.bindings = s.env.bindings := fun h => by rw [leaving_eq h]
  cases c with
  | define | defineBuiltin | loadPrelude | exitCall | configure | echoLine | get | interrupt | resetInterrupt | isInterrupted =>
    rfl
  | eval f => exact hkept (keeps_eval host s.settings f).keepsEnv
  | evalParts f => exact hkept (keepsEnv_evalParts host s.settings f)
  | apply | run | lookup => exact hkept fun _ => rfl
  | evalLine line => exact congrArg Environment.bindings (keepsEnv_evalLine host s.settings line _)
  | enterCall limit =>
    simp only [after, Deed.definitions, Command.definitions, List.reverse_nil, List.nil_append]
    cases he : s.env.enterCall limit with
    | error e => rfl
    | ok env => exact Environment.bindings_of_enterCall he

end Session

/-! ## Pasts -/

/-- How a session came to be: the flag and the settings that it was opened with, and what it was told since. -/
structure Past (σ : Type) where
  flag : Nat
  settings : Settings
  deeds : List (Deed σ)

namespace Past

/-- The session that a past leads to. -/
def session (p : Past σ) : Session := p.deeds.foldl Session.after (Session.empty p.flag p.settings)

/-- The definitions of a past in order. -/
def definitions (p : Past σ) : List (String × Form) := p.deeds.flatMap Deed.definitions

/-- The past with one thing more. -/
def tell (p : Past σ) (d : Deed σ) : Past σ := { p with deeds := p.deeds ++ [d] }

/-- One thing more leads to the session after it. -/
theorem session_tell (p : Past σ) (d : Deed σ) : (p.tell d).session = p.session.after d := by
  simp only [session, tell, List.foldl_concat]

/-- What is bound after a row of commands. -/
theorem bindings_foldl_after (s : Session) (ds : List (Deed σ)) :
    (ds.foldl Session.after s).env.bindings = (ds.flatMap Deed.definitions).reverse ++ s.env.bindings := by
  induction ds generalizing s with
  | nil => rfl
  | cons d ds ih => rw [List.foldl_cons, ih, Session.bindings_after, List.flatMap_cons, List.reverse_append, List.append_assoc]

/-- What is bound in the session of a past are its definitions, latest first. -/
theorem bindings_session (p : Past σ) : p.session.env.bindings = p.definitions.reverse := by
  rw [session, bindings_foldl_after]
  exact List.append_nil _

end Past

/-! ## Runs -/

/-- A move: what can be done to sessions by name. A session that is opened or copied under a name takes the place of one that is
there. -/
inductive Move (σ : Type) where
  | start (name : String) (flag : Nat) (settings : Settings)
  | fork (source target : String)
  | tell (name : String) (deed : Deed σ)

namespace Move

/-- The session that a move is about. -/
def subject : Move σ → String
  | .start name .. => name
  | .fork _ target => target
  | .tell name _ => name

/-- The sessions after a move. Where there is no session to copy or to tell, nothing happens. -/
def take (sessions : List (String × Session)) : Move σ → List (String × Session)
  | .start name flag settings => putNamed sessions name (.empty flag settings)
  | .fork source target => ((named? sessions source).map (putNamed sessions target)).getD sessions
  | .tell name d => ((named? sessions name).map fun s => putNamed sessions name (s.after d)).getD sessions

/-- The pasts after a move. A copy has the past of the session that it was copied from. -/
def record (pasts : String → Option (Past σ)) : Move σ → String → Option (Past σ)
  | .start name flag settings => Function.update pasts name (some ⟨flag, settings, []⟩)
  | .fork source target => ((pasts source).map fun p => Function.update pasts target (some p)).getD pasts
  | .tell name d => ((pasts name).map fun p => Function.update pasts name (some (p.tell d))).getD pasts

/-- The sessions after moves from the beginning. -/
def run (moves : List (Move σ)) : List (String × Session) := moves.foldl take []

/-- The pasts after moves from the beginning. -/
def pasts (moves : List (Move σ)) : String → Option (Past σ) := moves.foldl record fun _ => none

/-- After putting a value under a name, the values under names are those from before but for that name. -/
theorem named?_putNamed {α : Type} (items : List (String × α)) (name : String) (value : α) :
    named? (putNamed items name value) = Function.update (named? items) name (some value) := by
  funext other
  by_cases h : other = name
  · rw [h, named?_putNamed_self, Function.update_self]
  · rw [named?_putNamed_of_ne (Ne.symm h), Function.update_of_ne h]

/-- A move leads from the sessions of pasts to the sessions of the pasts after it. -/
theorem named?_take {sessions : List (String × Session)} {pasts : String → Option (Past σ)}
    (h : ∀ name, named? sessions name = (pasts name).map Past.session) (move : Move σ) (name : String) :
    named? (move.take sessions) name = (move.record pasts name).map Past.session := by
  have hupdate : ∀ (subject : String) (p : Past σ),
      named? (putNamed sessions subject p.session) name = (Function.update pasts subject (some p) name).map Past.session := by
    intro subject p
    rw [named?_putNamed]
    by_cases hname : name = subject
    · rw [hname, Function.update_self, Function.update_self, Option.map_some]
    · rw [Function.update_of_ne hname, Function.update_of_ne hname, h]
  cases move with
  | start opened flag settings => exact hupdate opened ⟨flag, settings, []⟩
  | fork source target =>
    simp only [take, record, h source]
    cases pasts source with
    | none => exact h name
    | some p => exact hupdate target p
  | tell told d =>
    simp only [take, record, h told]
    cases pasts told with
    | none => exact h name
    | some p =>
      have hp := hupdate told (p.tell d)
      rwa [p.session_tell] at hp

/-- The session of a name is what its past makes of it, and there is one exactly where there is a past. -/
theorem named?_run (moves : List (Move σ)) (name : String) :
    named? (run moves) name = (pasts moves name).map Past.session := by
  suffices ∀ (sessions : List (String × Session)) (before : String → Option (Past σ)),
      (∀ name, named? sessions name = (before name).map Past.session) →
        named? (moves.foldl take sessions) name = (moves.foldl record before name).map Past.session from
    this [] (fun _ => none) fun _ => rfl
  induction moves with
  | nil => exact fun _ _ h => h name
  | cons move moves ih => exact fun _ _ h => ih _ _ (named?_take h move)

/-- A move leaves every session as it was but the one that it is about. -/
theorem named?_take_of_ne {move : Move σ} {other : String} (h : move.subject ≠ other) (sessions : List (String × Session)) :
    named? (move.take sessions) other = named? sessions other := by
  have hput : ∀ s : Session, named? (putNamed sessions move.subject s) other = named? sessions other :=
    named?_putNamed_of_ne h sessions
  cases move with
  | start => exact hput _
  | fork source =>
    rw [take]
    cases named? sessions source with
    | none => rfl
    | some s => exact hput s
  | tell name d =>
    rw [take]
    cases named? sessions name with
    | none => rfl
    | some s => exact hput _

/-- What a move makes of the sessions does not depend on how they are kept. -/
theorem named?_take_congr {sessions others : List (String × Session)} (h : named? sessions = named? others) (move : Move σ) :
    named? (move.take sessions) = named? (move.take others) := by
  have hput : ∀ name (s : Session), named? (putNamed sessions name s) = named? (putNamed others name s) := by
    intro name s
    rw [named?_putNamed, named?_putNamed, h]
  cases move with
  | start name flag settings => exact hput name _
  | fork source target =>
    rw [take, take, h]
    cases named? others source with
    | none => exact h
    | some s => exact hput target s
  | tell name d =>
    rw [take, take, h]
    cases named? others name with
    | none => exact h
    | some s => exact hput name _

end Move

/-! ## Runs of workspaces -/

namespace Workspace

/-- The workspaces that come about from one with the standard session. -/
inductive Reachable : Workspace → Prop where
  | start (name : String) : Reachable (start name)
  | tell {ws ws' : Workspace} {name : String} {c : Command} {r : Report} (h : Reachable ws) (ht : ws.tell name c = some (r, ws')) :
    Reachable ws'
  | openSession {ws : Workspace} (h : Reachable ws) (name : String) (prelude : Bool) (settings : Settings) :
    Reachable (ws.openSession name prelude settings)
  | fork {ws ws' : Workspace} {source target : String} (h : Reachable ws) (hf : ws.fork source target = some ws') : Reachable ws'
  | makeBuiltin {ws : Workspace} (h : Reachable ws) (name : String) (arity : Int) (routine : Routine) :
    Reachable (ws.makeBuiltin name arity routine).2
  | internIn {ws : Workspace} (h : Reachable ws) (table name : String) : Reachable (ws.internIn table name).2

/-- The sessions are those of a run. -/
def Runs (ws : Workspace) (moves : List (Move World)) : Prop := named? ws.sessions = named? (Move.run moves)

/-- A further move leads to the sessions of the longer run. -/
theorem Runs.concat {ws ws' : Workspace} {moves : List (Move World)} (h : ws.Runs moves) {move : Move World}
    (hs : named? ws'.sessions = named? (move.take ws.sessions)) : ws'.Runs (moves ++ [move]) := by
  unfold Runs Move.run
  rw [List.foldl_concat, hs]
  exact Move.named?_take_congr h move

/-- Opening a session with the prelude is two moves: opening it without, and loading the prelude. -/
theorem Runs.openSession {ws : Workspace} {moves : List (Move World)} (h : ws.Runs moves) (name : String) (prelude : Bool)
    (settings : Settings) : ∃ more, (ws.openSession name prelude settings).Runs (moves ++ more) := by
  have hopen : (ws.openSession name false settings).Runs (moves ++ [.start name ws.nextFlag settings]) := h.concat rfl
  cases prelude with
  | false => exact ⟨_, hopen⟩
  | true =>
    let load : Deed World := ⟨World.host 0, {}, ws.nextSerial, .loadPrelude⟩
    refine ⟨[.start name ws.nextFlag settings, .tell name load], ?_⟩
    rw [← List.singleton_append, ← List.append_assoc]
    refine hopen.concat ?_
    have hopened : named? (ws.openSession name false settings).sessions name = some (.empty ws.nextFlag settings) :=
      named?_putNamed_self _ _ _
    rw [Move.take, hopened, Option.map_some, Option.getD_some, Move.named?_putNamed]
    simp only [Workspace.openSession, Move.named?_putNamed, Function.update_idem, if_true, Bool.false_eq_true, if_false]
    rfl

/-- The sessions of a workspace that comes about are those of a run, so what holds of runs holds of workspaces. -/
theorem Reachable.exists_runs {ws : Workspace} (h : ws.Reachable) : ∃ moves, ws.Runs moves := by
  induction h with
  | start name =>
    have hempty : (⟨[], {}, [], 0, 0⟩ : Workspace).Runs [] := rfl
    obtain ⟨moves, hmoves⟩ := hempty.openSession name true {}
    exact ⟨_, hmoves⟩
  | @tell ws ws' name c r _ ht ih =>
    obtain ⟨moves, hmoves⟩ := ih
    simp only [Workspace.tell, session?, Option.map_eq_some_iff, Prod.mk.injEq] at ht
    obtain ⟨s, hs, -, rfl⟩ := ht
    refine ⟨moves ++ [.tell name ⟨s.host, ws.world, ws.nextSerial, c⟩], hmoves.concat ?_⟩
    rw [Move.take, hs, Session.session_obey]
    rfl
  | openSession _ name prelude settings ih =>
    obtain ⟨moves, hmoves⟩ := ih
    obtain ⟨more, hmore⟩ := hmoves.openSession name prelude settings
    exact ⟨_, hmore⟩
  | @fork ws ws' source target _ hf ih =>
    obtain ⟨moves, hmoves⟩ := ih
    simp only [Workspace.fork, session?, Option.map_eq_some_iff] at hf
    obtain ⟨s, hs, rfl⟩ := hf
    refine ⟨moves ++ [.fork source target], hmoves.concat ?_⟩
    rw [Move.take, hs]
    rfl
  | makeBuiltin _ _ _ _ ih | internIn _ _ _ ih => exact ih

end Workspace

/-! ## The latest definition -/

/-- After any moves, a session is what its own past makes of it. A name is found there as what it was defined as last in that past,
and not found where it never was defined; the session has as many definitions as its past; and looking up a symbol fails exactly
where its name is not found. A further move leaves every session as it was but the one that it is about. -/
theorem latest_definition_wins (moves : List (Move σ)) :
    (∀ name s, named? (Move.run moves) name = some s →
      ∃ past, Move.pasts moves name = some past ∧ s = past.session ∧
        (∀ n v, s.env.get? n = some v ↔ LastDefined past.definitions n v) ∧
        (∀ n, s.env.get? n = none ↔ ∀ d ∈ past.definitions, d.1 ≠ n) ∧
        s.env.size = past.definitions.length ∧
        ∀ n, s.env.lookup n = .error (.unboundSymbol n) ↔ s.env.get? n = none) ∧
      ∀ move other, Move.subject move ≠ other →
        named? (Move.run (moves ++ [move])) other = named? (Move.run moves) other := by
  constructor
  · intro name s hs
    rw [Move.named?_run, Option.map_eq_some_iff] at hs
    obtain ⟨past, hpast, rfl⟩ := hs
    have hbindings := past.bindings_session
    refine ⟨past, hpast, rfl, fun _ _ => Environment.get?_eq_some_iff hbindings, fun _ => Environment.get?_eq_none_iff hbindings,
      ?_, fun _ => Environment.lookup_eq_error_iff⟩
    rw [Environment.size, hbindings, List.length_reverse]
  · intro move other h
    rw [Move.run, List.foldl_concat]
    exact Move.named?_take_of_ne h _

/-- A name is defined, the session is copied, and the copy defines the name anew and loads the prelude once more. -/
def copiedSession : List (Move World) :=
  let deed (serial : Nat) (c : Command) : Deed World := ⟨World.host 0, {}, serial, c⟩
  [.start "first" 0 {}, .tell "first" (deed 1 .loadPrelude), .tell "first" (deed 2 (.define "x" (.int 1 none))),
    .fork "first" "second", .tell "second" (deed 3 (.define "x" (.int 2 none))), .tell "second" (deed 4 .loadPrelude),
    .tell "first" (deed 5 (.eval (.symbol "y" none)))]

/-- The session still finds its own definition, and the copy finds the new one. Another definition in the copy does not reach the
session either. -/
theorem latest_definition_wins_copied :
    ∃ first second, named? (Move.run copiedSession) "first" = some first ∧ named? (Move.run copiedSession) "second" = some second ∧
      first.env.get? "x" = some (.int 1 none) ∧ second.env.get? "x" = some (.int 2 none) ∧ second.env.get? "y" = none ∧
      first.env.size = 5 ∧ second.env.size = 10 ∧
      named? (Move.run (copiedSession ++ [.tell "second" ⟨World.host 0, {}, 6, .define "y" (.int 3 none)⟩])) "first" =
        some first := by
  obtain ⟨hsessions, hothers⟩ := latest_definition_wins copiedSession
  obtain ⟨first, hfirst⟩ : ∃ s, named? (Move.run copiedSession) "first" = some s := ⟨_, rfl⟩
  obtain ⟨second, hsecond⟩ : ∃ s, named? (Move.run copiedSession) "second" = some s := ⟨_, rfl⟩
  obtain ⟨p, hp, -, hget, -, hsize, -⟩ := hsessions _ _ hfirst
  obtain ⟨q, hq, -, hget', hnone', hsize', -⟩ := hsessions _ _ hsecond
  cases hp
  cases hq
  refine ⟨first, second, hfirst, hsecond, (hget _ _).mpr ?_, (hget' _ _).mpr ?_, (hnone' _).mpr ?_, hsize, hsize', ?_⟩
  · exact ⟨Environment.preludeDefinitions 1, [], rfl, by simp⟩
  · exact ⟨Environment.preludeDefinitions 1 ++ [("x", .int 1 none)], Environment.preludeDefinitions 4, rfl, by
      simp [Environment.preludeDefinitions]⟩
  · decide
  · exact (hothers _ "first" (by decide)).trans hfirst

end TinyLisp

import TinyLisp.Proofs.Evaluation
import TinyLisp.Session

/-!
# Levels of depth are balanced

Evaluation goes one level deeper for every form and comes back by taking one off the depth, which stops at zero. It comes back
exactly once for every level that it entered, on every path: `evaluation_keeps_environment` says that evaluating a form, its parts
or a line leaves bindings and depth as they were, whatever the host does and whatever comes of it.

So the depth is never zero where a level is left. To say so, levels are left in any given way (`Form.evalLeaving`): evaluation is
the same for every way that agrees with the real one above depth zero.
-/

namespace TinyLisp

variable {σ : Type}

/-! ## Lines on any host -/

/-- Reads, evaluates and prints a line on a machine. -/
def Host.evalLine (host : Host σ) (settings : Settings) (line : String) : Machine σ → Except Error String × Machine σ :=
  fun m =>
    match readText defaultNesting line with
    | .error e => (.error (.read e), m)
    | .ok f => (((f.eval host settings m).1.mapError .eval).map (Form.print .readable), (f.eval host settings m).2)

/-- A line in a session is a line on the machine of the session. -/
theorem Session.evalLine_eq (s : Session) (w : World) (line : String) :
    s.evalLine w line =
      ⟨(s.host.evalLine s.settings line ⟨s.env, w, #[]⟩).1,
        { s with env := (s.host.evalLine s.settings line ⟨s.env, w, #[]⟩).2.env },
        (s.host.evalLine s.settings line ⟨s.env, w, #[]⟩).2.world,
        (s.host.evalLine s.settings line ⟨s.env, w, #[]⟩).2.trace.toList⟩ := by
  unfold Session.evalLine Host.evalLine
  cases readText defaultNesting line <;> rfl

/-! ## Other ways to leave a level -/

/-- Does the work of evaluating a form one level deeper, and comes back in the given way. -/
def Action.withinLeaving (leave : Environment → Environment) (host : Host σ) (settings : Settings) (f : Form)
    (work : Action σ Form) : Action σ Form := fun m =>
  if host.interrupted m.world then (.error .interrupted, m)
  else
    match m.env.enterCall settings.maxDepth with
    | .error e => (.error e, m)
    | .ok env =>
      match work ({ m with env }.record settings (.enter m.env.depth f)) with
      | (.error e, m') => (.error e, { m' with env := leave m'.env })
      | (.ok v, m') => (.ok v, { m' with env := leave m'.env }.record settings (.exit m.env.depth v))

mutual

/-- The value of a form, where levels are left in the given way. -/
def Form.evalLeaving (leave : Environment → Environment) (host : Host σ) (settings : Settings) : Form → Action σ Form
  | .symbol name token => Action.withinLeaving leave host settings (.symbol name token) (Action.lookup name)
  | .seq .list delims members =>
    Action.withinLeaving leave host settings (.seq .list delims members) do
      let values ← evalMembersLeaving leave host settings members
      applyMembers host delims values
  | .seq .vector delims members =>
    Action.withinLeaving leave host settings (.seq .vector delims members) do
      let values ← evalMembersLeaving leave host settings members
      pure (.seq .vector delims values)
  | .map delims pairs =>
    Action.withinLeaving leave host settings (.map delims pairs) do
      let pairs ← evalValuesLeaving leave host settings pairs
      pure (.map delims pairs)
  | f => Action.withinLeaving leave host settings f (pure f)

/-- The values of forms, where levels are left in the given way. -/
def evalMembersLeaving (leave : Environment → Environment) (host : Host σ) (settings : Settings) :
    List Form → Action σ (List Form)
  | [] => pure []
  | f :: fs => do
    let value ← f.evalLeaving leave host settings
    let values ← evalMembersLeaving leave host settings fs
    pure (value :: values)

/-- The keys of a map with the values of what stands under them, where levels are left in the given way. -/
def evalValuesLeaving (leave : Environment → Environment) (host : Host σ) (settings : Settings) :
    List (Key × Form) → Action σ (List (Key × Form))
  | [] => pure []
  | (k, f) :: rest => do
    let value ← f.evalLeaving leave host settings
    let rest ← evalValuesLeaving leave host settings rest
    pure ((k, value) :: rest)

end

/-- The form with its parts evaluated, where levels are left in the given way. -/
def Form.evalPartsLeaving (leave : Environment → Environment) (host : Host σ) (settings : Settings) : Form → Action σ Form
  | .symbol name _ => Action.lookup name
  | .seq kind delims members => do
    let values ← evalMembersLeaving leave host settings members
    pure (.seq kind delims values)
  | .map delims pairs => do
    let pairs ← evalValuesLeaving leave host settings pairs
    pure (.map delims pairs)
  | f => pure f

/-! ## The environment is kept -/

/-- Whether an action leaves the environment as it found it, whatever comes of it. -/
def Action.KeepsEnv {α : Type} (act : Action σ α) : Prop := ∀ m, (act m).2.env = m.env

/-- Any outcome is a value or an error. -/
theorem settles_true {α : Type} (r : Except EvalError α) : Settles (fun _ => True) (fun _ => True) r := by
  cases r <;> trivial

/-- Evaluation asks nothing of hosts and forms to keep the environment. -/
theorem trivial_invariant (host : Host σ) (limit : Nat) :
    EvalInvariant host limit (fun _ _ => True) (fun _ => True) (fun _ => True) fun _ => True where
  interrupted _ _ _ _ := trivial
  overflow _ := trivial
  symbol _ _ _ _ _ _ := settles_true _
  self _ _ _ _ := trivial
  member _ _ _ _ _ _ := trivial
  mapped _ _ _ _ _ := trivial
  empty _ _ := trivial
  vector _ _ _ _ _ _ := trivial
  map _ _ _ _ _ _ := trivial
  apply _ _ _ _ _ _ _ := ⟨trivial, settles_true _⟩

/-- Evaluating any form keeps the environment and, of the rest, nothing in particular. -/
theorem keeps_eval (host : Host σ) (settings : Settings) (f : Form) :
    Action.Keeps (fun _ _ => True) (fun _ => True) (fun _ => True) (f.eval host settings) :=
  (trivial_invariant host settings.maxDepth).eval trivial

/-- An action that keeps anything keeps the environment. -/
theorem Action.Keeps.keepsEnv {α : Type} {value : α → Prop} {fault : EvalError → Prop} {act : Action σ α}
    (h : Keeps (fun _ _ => True) value fault act) : act.KeepsEnv := by
  intro m
  exact (h m trivial).1

/-- Evaluating the parts of a form keeps the environment. -/
theorem keepsEnv_evalParts (host : Host σ) (settings : Settings) (f : Form) : (f.evalParts host settings).KeepsEnv := by
  have hpure : ∀ g : Form, Action.Keeps (fun _ _ => True) (fun _ => True) (fun _ => True) (pure g : Action σ Form) := by
    intro g
    exact Action.keeps_pure trivial
  cases f with
  | symbol name token => exact fun _ => rfl
  | int | str | keyword | bool | builtin => exact (hpure _).keepsEnv
  | seq kind delims members =>
    have hms := Action.keeps_evalMembers fun m (_ : m ∈ members) => keeps_eval host settings m
    exact (hms.bind fun vs _ => hpure _).keepsEnv
  | map delims pairs =>
    have hps := Action.keeps_evalValues fun p (_ : p ∈ pairs) => keeps_eval host settings p.2
    exact (hps.bind fun es _ => hpure _).keepsEnv

/-- The work of evaluating a form keeps the environment of its level. -/
theorem keepsEnv_work (host : Host σ) (settings : Settings) (f : Form) : (f.work host settings).KeepsEnv := by
  rcases f with _ | _ | _ | _ | _ | ⟨_ | _, delims, members⟩ | _ | _
  case seq.list =>
    have hms := Action.keeps_evalMembers fun m (_ : m ∈ members) => keeps_eval host settings m
    have happly : ∀ vs, Action.Keeps (fun _ _ => True) (fun _ => True) (fun _ => True) (applyMembers host delims vs) := by
      intro vs
      cases vs with
      | nil => exact Action.keeps_pure trivial
      | cons head args => exact fun m _ => ⟨rfl, trivial, settles_true _⟩
    exact (hms.bind fun vs _ => happly vs).keepsEnv
  all_goals exact keepsEnv_evalParts host settings _

/-! ## No level is left at depth zero -/

/-- One level deeper is not the highest level. -/
theorem Environment.depth_of_enterCall {env deeper : Environment} {limit : Nat} (h : env.enterCall limit = .ok deeper) :
    deeper.depth = env.depth + 1 := by
  unfold enterCall at h
  split at h <;> cases h
  rfl

section

variable {leave : Environment → Environment} {host : Host σ} {settings : Settings}

/-- Work that keeps the environment of its level comes back from a depth above zero, so it does not matter how depth zero would
be left. -/
theorem Action.withinLeaving_eq_within (hl : ∀ env : Environment, 0 < env.depth → leave env = env.exitCall)
    {work : Action σ Form} (hw : work.KeepsEnv) (f : Form) :
    withinLeaving leave host settings f work = within host settings f work := by
  funext m
  unfold withinLeaving within
  split
  · rfl
  · cases he : m.env.enterCall settings.maxDepth with
    | error e => rfl
    | ok env =>
      have hdepth : env.depth = m.env.depth + 1 := Environment.depth_of_enterCall he
      have henv := hw (({ m with env } : Machine σ).record settings (.enter m.env.depth f))
      rw [Machine.env_record] at henv
      -- The work ends where it began, one level below the start.
      rcases hwork : work (({ m with env } : Machine σ).record settings (.enter m.env.depth f)) with ⟨r, m'⟩
      rw [hwork] at henv
      have hpos : 0 < m'.env.depth := by
        rw [henv, hdepth]
        omega
      have hleave : leave m'.env = m'.env.exitCall := hl m'.env hpos
      simp only [hwork]
      cases r <;> simp only [hleave]

/-- Members are evaluated alike where each of them is. -/
theorem evalMembersLeaving_eq {fs : List Form}
    (h : ∀ f ∈ fs, f.evalLeaving leave host settings = f.eval host settings) :
    evalMembersLeaving leave host settings fs = evalMembers host settings fs := by
  induction fs with
  | nil => rfl
  | cons f fs ih =>
    obtain ⟨hf, hfs⟩ := List.forall_mem_cons.mp h
    rw [evalMembersLeaving, evalMembers, hf, ih hfs]

/-- The values of a map are evaluated alike where each of them is. -/
theorem evalValuesLeaving_eq {ps : List (Key × Form)}
    (h : ∀ p ∈ ps, p.2.evalLeaving leave host settings = p.2.eval host settings) :
    evalValuesLeaving leave host settings ps = evalValues host settings ps := by
  induction ps with
  | nil => rfl
  | cons p ps ih =>
    obtain ⟨hp, hps⟩ := List.forall_mem_cons.mp h
    rw [evalValuesLeaving, evalValues, hp, ih hps]

/-- Evaluation is the same for every way to leave a level that agrees with the real one above depth zero. -/
theorem evalLeaving_eq_eval (hl : ∀ env : Environment, 0 < env.depth → leave env = env.exitCall) (f : Form) :
    f.evalLeaving leave host settings = f.eval host settings := by
  have hwithin : ∀ f : Form, Action.withinLeaving leave host settings f (f.work host settings) = f.eval host settings := by
    intro f
    rw [Form.eval_eq_within, Action.withinLeaving_eq_within hl (keepsEnv_work host settings f)]
  induction f with
  | symbol name token => exact hwithin (.symbol name token)
  | int | str | keyword | bool | builtin =>
    rw [Form.evalLeaving]
    · exact hwithin _
    all_goals nofun
  | seq kind delims members ih =>
    have hms := evalMembersLeaving_eq ih
    cases kind <;> rw [Form.evalLeaving, hms] <;> exact hwithin _
  | map delims pairs ih =>
    rw [Form.evalLeaving, evalValuesLeaving_eq ih]
    exact hwithin _

/-- The parts of a form are evaluated alike, too. -/
theorem evalPartsLeaving_eq_evalParts (hl : ∀ env : Environment, 0 < env.depth → leave env = env.exitCall) (f : Form) :
    f.evalPartsLeaving leave host settings = f.evalParts host settings := by
  cases f with
  | symbol | int | str | keyword | bool | builtin => rfl
  | seq kind delims members =>
    rw [Form.evalPartsLeaving, Form.evalParts, evalMembersLeaving_eq fun m _ => evalLeaving_eq_eval hl m]
  | map delims pairs =>
    rw [Form.evalPartsLeaving, Form.evalParts, evalValuesLeaving_eq fun p _ => evalLeaving_eq_eval hl p.2]

end

/-! ## Evaluation keeps the environment -/

/-- A line leaves the environment of the machine as it found it. -/
theorem keepsEnv_evalLine (host : Host σ) (settings : Settings) (line : String) (m : Machine σ) :
    (host.evalLine settings line m).2.env = m.env := by
  unfold Host.evalLine
  cases readText defaultNesting line with
  | error e => rfl
  | ok f => exact (keeps_eval host settings f).keepsEnv m

/-- Evaluating a form, its parts or a line leaves the environment as it found it, bindings and depth, whatever the host, the
settings and the outcome, and so a session stays the same from line to line. No level is left at depth zero on the way, since
it does not matter how that would be done. -/
theorem evaluation_keeps_environment (host : Host σ) (settings : Settings) :
    (∀ f : Form, (f.eval host settings).KeepsEnv) ∧
      (∀ f : Form, (f.evalParts host settings).KeepsEnv) ∧
      (∀ line m, (host.evalLine settings line m).2.env = m.env) ∧
      (∀ (s : Session) w line, (s.evalLine w line).session = s) ∧
      ∀ leave : Environment → Environment, (∀ env : Environment, 0 < env.depth → leave env = env.exitCall) →
        ∀ f : Form, f.evalLeaving leave host settings = f.eval host settings ∧
          f.evalPartsLeaving leave host settings = f.evalParts host settings := by
  refine ⟨fun f => (keeps_eval host settings f).keepsEnv, keepsEnv_evalParts host settings,
    keepsEnv_evalLine host settings, ?_, ?_⟩
  · intro s w line
    have henv := keepsEnv_evalLine s.host s.settings line ⟨s.env, w, #[]⟩
    rw [Session.evalLine_eq, henv]
  · intro leave hl f
    exact ⟨evalLeaving_eq_eval hl f, evalPartsLeaving_eq_evalParts hl f⟩

/-- Going one level deeper instead wherever a level is left at depth zero is going another way, and it changes no evaluation. -/
theorem evaluation_keeps_environment_deeper :
    ∃ leave : Environment → Environment, (leave {}).depth ≠ (Environment.exitCall {}).depth ∧
      ∀ f : Form, f.evalLeaving leave Session.standard.host {} = f.eval Session.standard.host {} := by
  let leave : Environment → Environment := fun env => if env.depth = 0 then { env with depth := 1 } else env.exitCall
  have hl : ∀ env : Environment, 0 < env.depth → leave env = env.exitCall := by
    intro env hpos
    exact if_neg (by omega)
  obtain ⟨-, -, -, -, hleave⟩ := evaluation_keeps_environment Session.standard.host {}
  exact ⟨leave, by decide, fun f => (hleave leave hl f).1⟩

end TinyLisp

import TinyLisp.Proofs.Run
import TinyLisp.Routine

/-!
# What evaluation sees of an environment

Evaluation looks up the symbols that are written in a form where evaluation comes to them, and nothing else. A form that was looked
up is a value, whatever symbols or lists are in it. So two environments in which these symbols have the same values cannot be told
apart, however many other bindings they hold, in whatever order, and whatever was bound to the same names before
(`eval_sees_mentioned_only`).

Of all that makes up the run of a form, only `Form.combine` of a symbol asks for a binding. That the runs of two environments are
the same is therefore shown by induction over children (`Form.run_congr`).
-/

namespace TinyLisp

variable {σ : Type}

/-- Whether a symbol of a name is evaluated when a form is evaluated: the form is this symbol, or a child of it mentions the name. -/
inductive Form.Mentions (name : String) : Form → Prop where
  | symbol (token : Option Token) : Mentions name (.symbol name token)
  | child {f c : Form} : c ∈ f.children → Mentions name c → Mentions name f

/-- A form mentions its name if it is a symbol, and what its children mention. -/
theorem Form.mentions_iff {name : String} {f : Form} :
    f.Mentions name ↔ (∃ token, f = .symbol name token) ∨ ∃ c ∈ f.children, c.Mentions name := by
  constructor
  · rintro (token | ⟨hc, h⟩)
    · exact .inl ⟨token, rfl⟩
    · exact .inr ⟨_, hc, h⟩
  · rintro (⟨token, rfl⟩ | ⟨c, hc, h⟩)
    · exact .symbol token
    · exact .child hc h

/-- Whether the names that a form mentions have the same values in two environments. -/
def Environment.AgreesOn (f : Form) (env env' : Environment) : Prop := ∀ name, f.Mentions name → env.get? name = env'.get? name

/-- Environments that agree on a form agree on its children. -/
theorem Environment.AgreesOn.child {f c : Form} {env env' : Environment} (h : env.AgreesOn f env') (hc : c ∈ f.children) :
    env.AgreesOn c env' := by
  intro name hname
  exact h name (.child hc hname)

/-- What a form makes of the values of its children depends on the symbols that it mentions. -/
theorem Form.combine_congr {f : Form} {env env' : Environment} (h : env.AgreesOn f env') (host : Host σ) :
    f.combine host env.bindings = f.combine host env'.bindings := by
  funext values w
  cases f with
  | symbol name token =>
    have hlookup : env.lookup name = env'.lookup name := by
      rw [Environment.lookup, h name (.symbol token), Environment.lookup]
    exact congrArg (·, w) hlookup
  | seq kind => cases kind <;> cases values <;> rfl
  | int | str | keyword | bool | map | builtin => rfl

/-- Runs of a form in environments that agree on it are the same. -/
theorem Form.run_congr {f : Form} {env env' : Environment} (h : env.AgreesOn f env') (host : Host σ) (limit depth : Nat) :
    f.run ⟨host, limit, env.bindings⟩ depth = f.run ⟨host, limit, env'.bindings⟩ depth := by
  induction f using Form.induction_children generalizing depth with
  | h f ih =>
    have hchildren : (f.children.map fun c => c.run ⟨host, limit, env.bindings⟩ (depth + 1)) =
        f.children.map fun c => c.run ⟨host, limit, env'.bindings⟩ (depth + 1) :=
      List.map_congr_left fun c hc => ih c hc (h.child hc) (depth + 1)
    have hwork : (⟨host, limit, env.bindings⟩ : Surroundings σ).work f =
        (⟨host, limit, env'.bindings⟩ : Surroundings σ).work f := by
      funext inner w
      simp only [Surroundings.work, Form.combine_congr h host]
    funext w
    rw [Form.run_eq, Form.run_eq, hchildren, hwork]
    -- What is left around the work looks at the host and the limit only.
    rfl

/-- Evaluation sees an environment through the symbols that the form mentions only. In two environments of one depth in which the
mentioned names have the same values, or have none, a form has the same value or fails with the same error, it leaves the host in
the same state and writes the same trace, and each environment stays as it was. Nothing is assumed of other bindings. -/
theorem eval_sees_mentioned_only (host : Host σ) (settings : Settings) (f : Form) {env env' : Environment}
    (hdepth : env.depth = env'.depth) (h : ∀ name, f.Mentions name → env.get? name = env'.get? name) (w : σ)
    (trace : Array Event) :
    ∃ result w' trace', f.eval host settings ⟨env, w, trace⟩ = (result, ⟨env, w', trace'⟩) ∧
      f.eval host settings ⟨env', w, trace⟩ = (result, ⟨env', w', trace'⟩) := by
  refine ⟨_, _, _, eval_eq_run host settings f ⟨env, w, trace⟩, ?_⟩
  rw [eval_eq_run]
  simp only [hdepth, Form.run_congr h host]

/-- A value that was bound is not evaluated again: what the symbol in it is bound to does not count, and neither do bindings that
others hide. -/
theorem eval_sees_mentioned_only_hidden :
    let value : Form := .list [.symbol "y" none, .ofWord 1]
    let f : Form := .vector [.symbol "x" none]
    let env : Environment := ({} : Environment).define "x" value
    let env' : Environment := ((({} : Environment).define "x" (.bool true)).define "x" value).define "y" (.bool false)
    (f.eval (World.host 0) {} ⟨env, {}, #[]⟩).1 = .ok (.vector [value]) ∧
      (f.eval (World.host 0) {} ⟨env', {}, #[]⟩).1 = .ok (.vector [value]) := by
  intro value f env env'
  have hagrees : ∀ name, f.Mentions name → env.get? name = env'.get? name := by
    intro name hname
    have hx : name = "x" := by
      obtain ⟨_, hf⟩ | ⟨c, hc, hname⟩ := Form.mentions_iff.mp hname
      · simp [f, Form.vector] at hf
      · obtain rfl := List.mem_singleton.mp hc
        obtain ⟨_, hsymbol⟩ | ⟨_, hc, -⟩ := Form.mentions_iff.mp hname
        · exact (Form.symbol.inj hsymbol).1.symm
        · cases hc
    subst hx
    rfl
  have hdepth : env.depth = env'.depth := rfl
  have hvalue : (f.eval (World.host 0) {} ⟨env, {}, #[]⟩).1 = .ok (.vector [value]) := rfl
  obtain ⟨result, w', trace', heval, heval'⟩ := eval_sees_mentioned_only (World.host 0) {} f hdepth hagrees {} #[]
  refine ⟨hvalue, ?_⟩
  rw [heval']
  rw [heval] at hvalue
  exact hvalue

end TinyLisp

import TinyLisp.Eval.Basic
import TinyLisp.Proofs.Parts

/-!
# What evaluation keeps

Evaluation leaves the environment as it found it, whatever comes of it. What else it keeps depends on the host and on the forms.
`EvalInvariant` says what has to be shown of them, of one function call and of one kind of form at a time; `EvalInvariant.eval`
concludes from it what holds of every evaluation.
-/

namespace TinyLisp

variable {σ α β : Type}

/-- A result that is a value with one property or an error with another. -/
def Settles (value : α → Prop) (fault : EvalError → Prop) : Except EvalError α → Prop
  | .ok v => value v
  | .error e => fault e

/-- Going one level deeper does not change what is bound. -/
theorem Environment.bindings_of_enterCall {env deeper : Environment} {limit : Nat} (h : env.enterCall limit = .ok deeper) :
    deeper.bindings = env.bindings := by
  unfold enterCall at h
  split at h <;> cases h
  rfl

/-- Where one cannot go deeper, the limit has been reached. -/
theorem Environment.eq_of_enterCall_error {env : Environment} {limit : Nat} {e : EvalError}
    (h : env.enterCall limit = .error e) : e = .stackOverflow env.depth limit := by
  unfold enterCall at h
  split at h <;> cases h
  rfl

/-- What holds of all that is bound holds of what is found. -/
theorem Environment.settles_lookup {value : Form → Prop} {env : Environment} (h : ∀ b ∈ env.bindings, value b.2)
    (name : String) : Settles value (fun _ => True) (env.lookup name) := by
  unfold Environment.lookup Environment.get?
  cases hf : env.bindings.find? (·.1 == name) with
  | none => trivial
  | some b => exact h b (List.mem_of_find?_eq_some hf)

/-- Applying a form either is an error that leaves the state of the host alone, or it calls a function that takes that many
arguments. -/
theorem Host.apply_cases (host : Host σ) (f : Form) (args : List Form) (world : σ) :
    (∃ e, host.apply f args world = (.error e, world)) ∨
      ∃ b, f = .builtin b ∧ b.checkArity args.length = .ok () ∧ host.apply f args world = host.call b args world := by
  cases f with
  | builtin b =>
    cases hb : b.checkArity args.length with
    | error e => exact .inl ⟨e, by rw [Host.apply, hb]⟩
    | ok => exact .inr ⟨b, rfl, hb, by rw [Host.apply, hb]⟩
  | _ => exact .inl ⟨_, rfl⟩

namespace Action

/-! ## Actions that keep the environment -/

/-- Whenever the action begins with bindings and a state of the host that are allowed, it leaves the environment as it is and the
state of the host allowed, and its outcome has the given properties. -/
def Keeps (state : List (String × Form) → σ → Prop) (value : α → Prop) (fault : EvalError → Prop) (act : Action σ α) :
    Prop :=
  ∀ m, state m.env.bindings m.world →
    (act m).2.env = m.env ∧ state m.env.bindings (act m).2.world ∧ Settles value fault (act m).1

variable {state : List (String × Form) → σ → Prop} {value : α → Prop} {fault : EvalError → Prop}

/-- Giving a value with the property keeps everything. -/
theorem keeps_pure {v : α} (h : value v) : Keeps state value fault (pure v : Action σ α) := fun _ hs => ⟨rfl, hs, h⟩

/-- After a value the next action goes on from where the first one stopped, whatever the state and the errors are. -/
theorem bind_ok {ε τ : Type} {act : ExceptT ε (StateM τ) α} {m m' : τ} {v : α} (h : act m = (.ok v, m'))
    (next : α → ExceptT ε (StateM τ) β) : (act >>= next) m = next v m' := by
  simp only [bind, ExceptT.bind, ExceptT.mk, StateT.bind, h]
  rfl

/-- After an error no action follows, whatever the state and the errors are. -/
theorem bind_error {ε τ : Type} {act : ExceptT ε (StateM τ) α} {m m' : τ} {e : ε} (h : act m = (.error e, m'))
    (next : α → ExceptT ε (StateM τ) β) : (act >>= next) m = (.error e, m') := by
  simp only [bind, ExceptT.bind, ExceptT.mk, StateT.bind, h]
  rfl

/-- An action followed by another keeps what both keep. -/
theorem Keeps.bind {act : Action σ α} {next : α → Action σ β} {result : β → Prop} (h : Keeps state value fault act)
    (hn : ∀ v, value v → Keeps state result fault (next v)) : Keeps state result fault (act >>= next) := by
  intro m hs
  obtain ⟨henv, hworld, hout⟩ := h m hs
  rcases hact : act m with ⟨e | v, m'⟩
  · rw [bind_error hact]
    simp only [hact] at henv hworld hout
    exact ⟨henv, hworld, hout⟩
  · rw [bind_ok hact]
    simp only [hact] at henv hworld hout
    obtain ⟨henv', hworld', hout'⟩ := hn v hout m' (by rwa [henv])
    exact ⟨henv'.trans henv, henv ▸ hworld', hout'⟩

/-- Work that is done one level deeper keeps what it keeps there, and the depth. -/
theorem Keeps.within {value : Form → Prop} {host : Host σ} {settings : Settings} {work : Action σ Form}
    (h : Keeps state value fault work)
    (hi : ∀ bindings world, state bindings world → host.interrupted world = true → fault .interrupted)
    (ho : ∀ depth, fault (.stackOverflow depth settings.maxDepth)) (f : Form) :
    Keeps state value fault (within host settings f work) := by
  intro m hs
  unfold Action.within
  split
  · next hint => exact ⟨rfl, hs, hi _ _ hs hint⟩
  · split
    · next e he =>
      obtain rfl := Environment.eq_of_enterCall_error he
      exact ⟨rfl, hs, ho _⟩
    · next env he =>
      have hb : env.bindings = m.env.bindings := Environment.bindings_of_enterCall he
      have hexit : env.exitCall = m.env := Environment.exitCall_of_enterCall he
      have hw := h (({ m with env } : Machine σ).record settings (.enter m.env.depth f)) (by simpa [hb] using hs)
      split
      · next e m' hwork =>
        simp only [hwork, Machine.env_record, hb] at hw
        exact ⟨hw.1 ▸ hexit, hw.2⟩
      · next v m' hwork =>
        simp only [hwork, Machine.env_record, hb] at hw
        simp only [Machine.env_record, Machine.world_record]
        exact ⟨hw.1 ▸ hexit, hw.2⟩

/-- Members are evaluated to as many values. -/
theorem keeps_evalMembers {value : Form → Prop} {host : Host σ} {settings : Settings} {fs : List Form}
    (h : ∀ f ∈ fs, Keeps state value fault (f.eval host settings)) :
    Keeps state (fun vs => vs.length = fs.length ∧ ∀ v ∈ vs, value v) fault (evalMembers host settings fs) := by
  induction fs with
  | nil => exact keeps_pure ⟨rfl, by simp⟩
  | cons f fs ih =>
    obtain ⟨hf, hfs⟩ := List.forall_mem_cons.mp h
    refine hf.bind fun v hv => (ih hfs).bind fun vs hvs => keeps_pure ⟨by simp [hvs.1], ?_⟩
    exact List.forall_mem_cons.mpr ⟨hv, hvs.2⟩

/-- The values of a map are evaluated under the same keys. -/
theorem keeps_evalValues {value : Form → Prop} {host : Host σ} {settings : Settings}
    {ps : List (Key × Form)} (h : ∀ p ∈ ps, Keeps state value fault (p.2.eval host settings)) :
    Keeps state (fun es => es.map Prod.fst = ps.map Prod.fst ∧ ∀ e ∈ es, value e.2) fault
      (evalValues host settings ps) := by
  induction ps with
  | nil => exact keeps_pure ⟨rfl, by simp⟩
  | cons p ps ih =>
    obtain ⟨hp, hps⟩ := List.forall_mem_cons.mp h
    refine hp.bind fun v hv => (ih hps).bind fun es hes => keeps_pure ⟨by simp [hes.1], ?_⟩
    exact List.forall_mem_cons.mpr ⟨hv, hes.2⟩

end Action

/-! ## Evaluation -/

/-- What evaluation with a host and a limit of depth keeps: bindings and states of the host stay allowed, forms have allowed
values, and errors are allowed ones. Each field is about one thing that evaluation does. -/
structure EvalInvariant (host : Host σ) (limit : Nat) (state : List (String × Form) → σ → Prop) (source value : Form → Prop)
    (fault : EvalError → Prop) : Prop where
  /-- Evaluation may stop where the host says so. -/
  interrupted : ∀ bindings world, state bindings world → host.interrupted world = true → fault .interrupted
  /-- Evaluation stops at the limit of depth. -/
  overflow : ∀ depth, fault (.stackOverflow depth limit)
  /-- A symbol has the value that it is bound to. -/
  symbol : ∀ name token env world, source (.symbol name token) → state env.bindings world →
    Settles value fault (Environment.lookup env name)
  /-- Forms that are neither symbols nor collections stand for themselves. -/
  self : ∀ f, source f → f.isSymbol = false → f.isCollection = false → value f
  /-- Members of a sequence are evaluated. -/
  member : ∀ kind delims members, source (.seq kind delims members) → ∀ m ∈ members, source m
  /-- Values of a map are evaluated. -/
  mapped : ∀ delims pairs, source (.map delims pairs) → ∀ p ∈ pairs, source p.2
  /-- The empty list stands for itself. -/
  empty : ∀ delims, source (.seq .list delims []) → value (.seq .list delims [])
  /-- A vector has the vector of the values as its value. -/
  vector : ∀ delims members values, source (.seq .vector delims members) → values.length = members.length →
    (∀ v ∈ values, value v) → value (.seq .vector delims values)
  /-- A map has the map of the values as its value. -/
  map : ∀ delims pairs entries, source (.map delims pairs) → entries.map Prod.fst = pairs.map Prod.fst →
    (∀ e ∈ entries, value e.2) → value (.map delims entries)
  /-- A value is applied to values. -/
  apply : ∀ bindings world f args, state bindings world → value f → (∀ a ∈ args, value a) →
    state bindings (host.apply f args world).2 ∧ Settles value fault (host.apply f args world).1

namespace EvalInvariant

variable {host : Host σ} {settings : Settings} {state : List (String × Form) → σ → Prop} {source value : Form → Prop}
  {fault : EvalError → Prop}

/-- The values of the members of a list are applied, unless there are none. -/
theorem applied (h : EvalInvariant host settings.maxDepth state source value fault) {delims : Delimiters}
    {members values : List Form} (hf : source (.seq .list delims members)) (hl : values.length = members.length)
    (hv : ∀ v ∈ values, value v) : Action.Keeps state value fault (applyMembers host delims values) := by
  cases values with
  | nil =>
    obtain rfl := List.length_eq_zero_iff.mp hl.symm
    exact Action.keeps_pure (h.empty delims hf)
  | cons head args =>
    obtain ⟨hhead, hargs⟩ := List.forall_mem_cons.mp hv
    exact fun m hs => ⟨rfl, h.apply _ _ _ _ hs hhead hargs⟩

/-- Evaluation keeps the environment and whatever is shown of its host and its forms. -/
theorem eval (h : EvalInvariant host settings.maxDepth state source value fault) {f : Form} (hf : source f) :
    Action.Keeps state value fault (f.eval host settings) := by
  induction f with
  | symbol name token =>
    exact Action.Keeps.within (fun m hs => ⟨rfl, hs, h.symbol _ _ _ _ hf hs⟩) h.interrupted h.overflow _
  | int | str | keyword | bool | builtin =>
    exact (Action.keeps_pure (h.self _ hf rfl rfl)).within h.interrupted h.overflow _
  | seq kind delims members ih =>
    have hms := Action.keeps_evalMembers fun m hm => ih m hm (h.member _ _ _ hf m hm)
    cases kind with
    | list => exact (hms.bind fun vs hvs => h.applied hf hvs.1 hvs.2).within h.interrupted h.overflow _
    | vector =>
      refine (hms.bind fun vs hvs => Action.keeps_pure ?_).within h.interrupted h.overflow _
      exact h.vector _ _ _ hf hvs.1 hvs.2
  | map delims pairs ih =>
    have hps := Action.keeps_evalValues fun p hp => ih p hp (h.mapped _ _ hf p hp)
    refine (hps.bind fun es hes => Action.keeps_pure ?_).within h.interrupted h.overflow _
    exact h.map _ _ _ hf hes.1 hes.2

end EvalInvariant

end TinyLisp

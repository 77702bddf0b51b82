import Mathlib.Data.List.Forall2
import TinyLisp.Proofs.Children
import TinyLisp.Proofs.Evaluation

/-!
# Runs

While a form is evaluated, the host, the limit of depth and the bindings stay as they are. Given these and a depth, evaluation
takes a state of the host to events, an outcome and a state again: a run. The run of a form is made the same way whatever the form
is: it begins, it runs the children one level deeper, it combines their values, and it ends (`Form.run_eq`). Evaluation on a
machine is the run (`eval_eq_run`), so what is shown of runs by induction over children holds of evaluation. What was traced
before does not occur in the run, and so does not matter (`eval_alike`).
-/

namespace TinyLisp

variable {σ α β : Type}

/-- What comes of a piece of an evaluation: the events in it, its outcome and the state of the host after it. -/
structure Run (σ α : Type) where
  events : List Event
  outcome : Except EvalError α
  world : σ

namespace Run

/-- What comes of a run, apart from the events in it. -/
def result (r : Run σ α) : Except EvalError α × σ := (r.outcome, r.world)

/-- A run without events. -/
def silent (result : Except EvalError α × σ) : Run σ α := ⟨[], result.1, result.2⟩

/-- A run followed by another, unless it ends with an error. -/
def andThen (r : Run σ α) (next : α → σ → Run σ β) : Run σ β :=
  match r.outcome with
  | .error e => ⟨r.events, .error e, r.world⟩
  | .ok v => ⟨r.events ++ (next v r.world).events, (next v r.world).outcome, (next v r.world).world⟩

/-- Runs one after the other, up to the first error. -/
def all : List (σ → Run σ α) → σ → Run σ (List α)
  | [], w => silent (.ok [], w)
  | run :: runs, w => (run w).andThen fun v w => (all runs w).andThen fun vs w => silent (.ok (v :: vs), w)

/-- After an error nothing follows. -/
theorem andThen_of_error {r : Run σ α} {e : EvalError} (h : r.outcome = .error e) (next : α → σ → Run σ β) :
    r.andThen next = ⟨r.events, .error e, r.world⟩ := by
  rw [andThen, h]

/-- After a value the next run goes on from the state that the first one leaves. -/
theorem andThen_of_ok {r : Run σ α} {v : α} (h : r.outcome = .ok v) (next : α → σ → Run σ β) :
    r.andThen next =
      ⟨r.events ++ (next v r.world).events, (next v r.world).outcome, (next v r.world).world⟩ := by
  rw [andThen, h]

/-- What comes of a run that fails is all that comes of it with another run after it. -/
theorem result_andThen_of_error {r : Run σ α} {e : EvalError} {w : σ} (h : r.result = (.error e, w)) (next : α → σ → Run σ β) :
    (r.andThen next).result = (.error e, w) := by
  obtain ⟨houtcome, hworld⟩ := Prod.ext_iff.mp h
  rw [andThen_of_error houtcome]
  exact Prod.ext rfl hworld

/-- What comes of a run that gives a value, with another run after it, is what comes of that. -/
theorem result_andThen_of_ok {r : Run σ α} {v : α} {w : σ} (h : r.result = (.ok v, w)) (next : α → σ → Run σ β) :
    (r.andThen next).result = (next v w).result := by
  obtain ⟨houtcome, rfl⟩ := Prod.ext_iff.mp h
  rw [andThen_of_ok houtcome]
  rfl

/-- A run without events adds none. -/
@[simp] theorem events_andThen_silent (r : Run σ α) (next : α → σ → Except EvalError β × σ) :
    (r.andThen fun v w => silent (next v w)).events = r.events := by
  cases h : r.outcome with
  | error e => rw [andThen_of_error h]
  | ok v => rw [andThen_of_ok h, silent, List.append_nil]

/-- Two runs one after the other give a value exactly when the first gives one and the second goes on to the value. -/
theorem andThen_eq_ok_iff {r : Run σ α} {next : α → σ → Run σ β} {b : β} :
    (r.andThen next).outcome = .ok b ↔ ∃ a, r.outcome = .ok a ∧ (next a r.world).outcome = .ok b := by
  cases h : r.outcome with
  | error e => simp [andThen_of_error h]
  | ok a => simp [andThen_of_ok h]

/-- Two runs one after the other fail exactly when the first fails so, or gives a value and the second fails so. -/
theorem andThen_eq_error_iff {r : Run σ α} {next : α → σ → Run σ β} {e : EvalError} :
    (r.andThen next).outcome = .error e ↔
      r.outcome = .error e ∨ ∃ a, r.outcome = .ok a ∧ (next a r.world).outcome = .error e := by
  cases h : r.outcome with
  | error e => simp [andThen_of_error h]
  | ok a => simp [andThen_of_ok h]

/-- Where a run gives a value, and so do those after it, these are the values, and the state is the last one's. -/
theorem result_all_cons {run : σ → Run σ α} {runs : List (σ → Run σ α)} {w : σ} {v : α} {vs : List α}
    (hv : (run w).outcome = .ok v) (hvs : (all runs (run w).world).outcome = .ok vs) :
    (all (run :: runs) w).result = (.ok (v :: vs), (all runs (run w).world).world) := by
  rw [all, andThen_of_ok hv, andThen_of_ok hvs]
  rfl

/-- Runs one after the other fail exactly when one of them fails so, after values of those before it. -/
theorem all_eq_error_iff {γ : Type} {run : γ → σ → Run σ α} {fs : List γ} {w : σ} {e : EvalError} :
    (all (fs.map run) w).outcome = .error e ↔
      ∃ before f rest vs, fs = before ++ f :: rest ∧ (all (before.map run) w).outcome = .ok vs ∧
        (run f (all (before.map run) w).world).outcome = .error e := by
  induction fs generalizing w with
  | nil => simp [all, silent]
  | cons f fs ih =>
    simp only [List.map_cons, all, andThen_eq_error_iff, ih, silent, reduceCtorEq, and_false, exists_false, or_false]
    constructor
    · rintro (hf | ⟨v, hv, before, g, rest, vs, rfl, hbefore, hg⟩)
      · exact ⟨[], f, fs, [], rfl, rfl, hf⟩
      · obtain ⟨houtcome, hworld⟩ := Prod.ext_iff.mp (result_all_cons hv hbefore)
        refine ⟨f :: before, g, rest, v :: vs, rfl, houtcome, ?_⟩
        rw [List.map_cons, show (all (run f :: before.map run) w).world = _ from hworld]
        exact hg
    · rintro ⟨_ | ⟨g, before⟩, h, rest, vs, hsplit, hbefore, hh⟩
      · cases hsplit
        exact .inl hh
      · cases hsplit
        obtain ⟨v, hv, hrest⟩ := andThen_eq_ok_iff.mp hbefore
        obtain ⟨us, hus, -⟩ := andThen_eq_ok_iff.mp hrest
        have hworld : (all (run f :: before.map run) w).world = _ := congrArg Prod.snd (result_all_cons hv hus)
        rw [List.map_cons, hworld] at hh
        exact .inr ⟨v, hv, before, h, rest, us, rfl, hus, hh⟩

/-- Runs of forms that give values give one for each form, in order. -/
theorem forall₂_of_all_eq_ok {R : Form → α → Prop} {run : Form → σ → Run σ α} {fs : List Form} {w : σ} {vs : List α}
    (hR : ∀ f ∈ fs, ∀ w v, (run f w).outcome = .ok v → R f v) (h : (all (fs.map run) w).outcome = .ok vs) :
    List.Forall₂ R fs vs := by
  induction fs generalizing w vs with
  | nil =>
    cases h
    exact .nil
  | cons f fs ih =>
    obtain ⟨hf, hfs⟩ := List.forall_mem_cons.mp hR
    obtain ⟨v, hv, hrest⟩ := andThen_eq_ok_iff.mp h
    obtain ⟨us, hus, heq⟩ := andThen_eq_ok_iff.mp hrest
    cases heq
    exact .cons (hf w v hv) (ih hfs hus)

/-- Runs of forms that give values and leave the state as it is do so one after the other. -/
theorem all_of_values {run : Form → σ → Run σ α} {fs : List Form} {vs : List α} {w : σ}
    (h : List.Forall₂ (fun f v => (run f w).result = (.ok v, w)) fs vs) : (all (fs.map run) w).result = (.ok vs, w) := by
  induction h with
  | nil => rfl
  | cons hf _ ih => rw [List.map_cons, all, result_andThen_of_ok hf, result_andThen_of_ok ih, silent, result]

/-- If a run that fails comes after them, all of them fail as it does, whatever comes next. -/
theorem all_of_fault {run : Form → σ → Run σ α} {fs : List Form} {vs : List α} {w : σ}
    (h : List.Forall₂ (fun f v => (run f w).result = (.ok v, w)) fs vs) {f : Form} {e : EvalError}
    (hf : (run f w).result = (.error e, w)) (rest : List Form) :
    (all ((fs ++ f :: rest).map run) w).result = (.error e, w) := by
  induction h with
  | nil => exact result_andThen_of_error hf _
  | cons hg _ ih =>
    rw [List.cons_append, List.map_cons, all, result_andThen_of_ok hg]
    exact result_andThen_of_error ih _

end Run

/-! ## The run of a form -/

/-- What a form makes of the values of its children, and the state of the host after it. A list that is not empty applies the
first value to the others, and only this may change the state. -/
def Form.combine (host : Host σ) (bindings : List (String × Form)) : Form → List Form → σ → Except EvalError Form × σ
  | .symbol name _, _, w => (({ bindings } : Environment).lookup name, w)
  | .seq .list _ _, head :: args, w => host.apply head args w
  | .seq kind delims _, values, w => (.ok (.seq kind delims values), w)
  | .map delims pairs, values, w => (.ok (.map delims ((pairs.map Prod.fst).zip values)), w)
  | f, _, w => (.ok f, w)

/-- The event at the end of a form, which there is only where the form has a value. -/
def Event.closing (depth : Nat) : Except EvalError Form → List Event
  | .ok v => [.exit depth v]
  | .error _ => []

/-- What evaluation depends on and leaves as it is: the host, the limit of depth and what is bound. -/
structure Surroundings (σ : Type) where
  host : Host σ
  limit : Nat
  bindings : List (String × Form)

namespace Surroundings

/-- The beginning of a form. Nothing is done where evaluation is to stop or where the limit of depth has been reached. -/
def begin (s : Surroundings σ) (f : Form) (depth : Nat) (w : σ) : Run σ Unit :=
  if s.host.interrupted w then ⟨[], .error .interrupted, w⟩
  else if s.limit ≤ depth then ⟨[], .error (.stackOverflow depth s.limit), w⟩
  else ⟨[.enter depth f], .ok (), w⟩

/-- The beginning of a form leaves the state as it is. -/
theorem world_begin (s : Surroundings σ) (f : Form) (depth : Nat) (w : σ) : (s.begin f depth w).world = w := by
  unfold begin
  split_ifs <;> rfl

/-- The work for a form, from the run of its children. -/
def work (s : Surroundings σ) (f : Form) (inner : σ → Run σ (List Form)) (w : σ) : Run σ Form :=
  (inner w).andThen fun values w => .silent (f.combine s.host s.bindings values w)

/-- A form from its beginning to its end, around the work for it. -/
def around (s : Surroundings σ) (f : Form) (depth : Nat) (work : σ → Run σ Form) (w : σ) : Run σ Form :=
  (s.begin f depth w).andThen fun _ w => (work w).andThen fun v w => ⟨[.exit depth v], .ok v, w⟩

/-- Where a form begins, its outcome and the state after it are those of the work, and its events are put around. -/
theorem around_eq {s : Surroundings σ} {depth : Nat} {w : σ} (hint : s.host.interrupted w = false) (hlimit : depth < s.limit)
    (f : Form) (work : σ → Run σ Form) :
    s.around f depth work w =
      ⟨.enter depth f :: (work w).events ++ Event.closing depth (work w).outcome, (work w).outcome, (work w).world⟩ := by
  have hbegin : s.begin f depth w = ⟨[.enter depth f], .ok (), w⟩ := by
    simp only [begin, hint, Nat.not_le.mpr hlimit, Bool.false_eq_true, if_false]
  unfold around
  rw [hbegin, Run.andThen_of_ok rfl]
  cases ho : (work w).outcome with
  | error e => simp [Run.andThen_of_error ho, Event.closing]
  | ok v => simp [Run.andThen_of_ok ho, Event.closing]

/-- What comes of a form that begins is what comes of the work for it. -/
theorem result_around {s : Surroundings σ} {depth : Nat} {w : σ} (hint : s.host.interrupted w = false) (hlimit : depth < s.limit)
    (f : Form) (work : σ → Run σ Form) : (s.around f depth work w).result = (work w).result := by
  rw [around_eq hint hlimit]
  rfl

end Surroundings

/-- The run of a form at a depth. -/
def Form.run (s : Surroundings σ) : Form → Nat → σ → Run σ Form :=
  Form.fold fun f runs depth => s.around f depth (s.work f (Run.all (runs.map fun run => run (depth + 1))))

/-- The run of a form contains those of its children, one level deeper. -/
theorem Form.run_eq (s : Surroundings σ) (f : Form) (depth : Nat) :
    f.run s depth = s.around f depth (s.work f (Run.all (f.children.map fun c => c.run s (depth + 1)))) := by
  rw [Form.run, Form.fold_eq, List.map_map]
  rfl

/-- Where the children have values and leave the state as it is, what comes of a form is what comes of combining the values. -/
theorem Form.run_of_values {s : Surroundings σ} {f : Form} {depth : Nat} {w : σ} (hint : s.host.interrupted w = false)
    (hdepth : depth < s.limit) {values : List Form}
    (h : List.Forall₂ (fun (c : Form) v => (c.run s (depth + 1) w).result = (.ok v, w)) f.children values) :
    (f.run s depth w).result = f.combine s.host s.bindings values w := by
  rw [Form.run_eq, Surroundings.result_around hint hdepth, Surroundings.work, Run.result_andThen_of_ok (Run.all_of_values h)]
  rfl

/-- Where a child fails and the children before it have values, all of which leave the state as it is, the form fails as the child
does. -/
theorem Form.run_of_fault {s : Surroundings σ} {f : Form} {depth : Nat} {w : σ} (hint : s.host.interrupted w = false)
    (hdepth : depth < s.limit) {before rest values : List Form} {c : Form} {e : EvalError} (hf : f.children = before ++ c :: rest)
    (hbefore : List.Forall₂ (fun (c : Form) v => (c.run s (depth + 1) w).result = (.ok v, w)) before values)
    (hc : (c.run s (depth + 1) w).result = (.error e, w)) : (f.run s depth w).result = (.error e, w) := by
  rw [Form.run_eq, Surroundings.result_around hint hdepth, hf, Surroundings.work]
  exact Run.result_andThen_of_error (Run.all_of_fault hbefore hc rest) _

/-- A run gives a value exactly when the form begins and is made a value from those of its children. -/
theorem Form.run_eq_ok_iff {s : Surroundings σ} {f v : Form} {depth : Nat} {w : σ} :
    (f.run s depth w).outcome = .ok v ↔
      (s.begin f depth w).outcome = .ok () ∧ ∃ values,
        (Run.all (f.children.map fun c => c.run s (depth + 1)) (s.begin f depth w).world).outcome = .ok values ∧
          (f.combine s.host s.bindings values
            (Run.all (f.children.map fun c => c.run s (depth + 1)) (s.begin f depth w).world).world).1 = .ok v := by
  rw [Form.run_eq]
  simp only [Surroundings.around, Surroundings.work, Run.andThen_eq_ok_iff, Run.silent, Except.ok.injEq, exists_eq_right]
  exact ⟨fun ⟨_, h⟩ => h, fun h => ⟨(), h⟩⟩

/-- A run fails exactly when the form does not begin, or when its children fail, or when nothing is made of their values. -/
theorem Form.run_eq_error_iff {s : Surroundings σ} {f : Form} {depth : Nat} {w : σ} {e : EvalError} :
    (f.run s depth w).outcome = .error e ↔
      (s.begin f depth w).outcome = .error e ∨ (s.begin f depth w).outcome = .ok () ∧
        ((Run.all (f.children.map fun c => c.run s (depth + 1)) w).outcome = .error e ∨ ∃ values,
          (Run.all (f.children.map fun c => c.run s (depth + 1)) w).outcome = .ok values ∧
            (f.combine s.host s.bindings values (Run.all (f.children.map fun c => c.run s (depth + 1)) w).world).1 = .error e) := by
  rw [Form.run_eq]
  simp only [Surroundings.around, Surroundings.work, Run.andThen_eq_error_iff, Run.silent, reduceCtorEq, and_false, exists_false,
    or_false, Surroundings.world_begin]
  exact or_congr_right ⟨fun ⟨_, h⟩ => h, fun h => ⟨(), h⟩⟩

/-- What holds between a form and a value whenever it holds between the children and the values combined holds between every form
and the value that its run gives. -/
theorem Form.rel_of_run_eq_ok {R : Form → Form → Prop} {s : Surroundings σ}
    (h : ∀ f values w v, List.Forall₂ R f.children values → (f.combine s.host s.bindings values w).1 = .ok v → R f v)
    {f v : Form} {depth : Nat} {w : σ} (hv : (f.run s depth w).outcome = .ok v) : R f v := by
  induction f using Form.induction_children generalizing v depth w with
  | h f ih =>
    obtain ⟨-, values, hvalues, hcombine⟩ := Form.run_eq_ok_iff.mp hv
    exact h f values _ v (Run.forall₂_of_all_eq_ok (fun c hc _ _ hu => ih c hc hu) hvalues) hcombine

/-! ## Evaluation is the run -/

/-- A trace with further events, which are kept only where a trace is wanted. -/
def Settings.kept (settings : Settings) (trace : Array Event) (events : List Event) : Array Event :=
  if settings.trace then trace ++ events.toArray else trace

@[simp] theorem Settings.kept_nil (settings : Settings) (trace : Array Event) : settings.kept trace [] = trace := by
  simp [kept]

@[simp] theorem Settings.kept_append (settings : Settings) (trace : Array Event) (es es' : List Event) :
    settings.kept trace (es ++ es') = settings.kept (settings.kept trace es) es' := by
  unfold kept
  split <;> simp

/-- Recording an event keeps it. -/
theorem Machine.record_eq (m : Machine σ) (settings : Settings) (e : Event) :
    m.record settings e = { m with trace := settings.kept m.trace [e] } := by
  unfold record Settings.kept
  split <;> simp

namespace Action

/-- Combines the values of the children of a form. -/
def combine (host : Host σ) (f : Form) (values : List Form) : Action σ Form := fun m =>
  let (result, world) := f.combine host m.env.bindings values m.world
  (result, { m with world })

/-- The work of evaluating a form is to evaluate its children and to combine their values. -/
theorem work_eq (host : Host σ) (settings : Settings) (f : Form) :
    f.work host settings = evalMembers host settings f.children >>= combine host f := by
  cases f with
  | int | symbol | str | keyword | bool | builtin => rfl
  | seq kind delims members =>
    cases kind with
    | list =>
      refine congrArg (evalMembers host settings members >>= ·) (funext fun values => ?_)
      cases values <;> rfl
    | vector => rfl
  | map delims pairs =>
    have hwork : (Form.map delims pairs).work host settings =
        evalValues host settings pairs >>= fun entries => pure (.map delims entries) := rfl
    rw [hwork, evalValues_eq_map, bind_map_left]
    rfl

/-- Whether an action does what a run says, and leaves the environment as it is. -/
def Runs (settings : Settings) (env : Environment) (act : Action σ α) (run : σ → Run σ α) : Prop :=
  ∀ w trace, act ⟨env, w, trace⟩ = ((run w).outcome, ⟨env, (run w).world, settings.kept trace (run w).events⟩)

variable {host : Host σ} {settings : Settings} {env : Environment}

/-- An action that writes no events is a run without events. -/
theorem runs_pure (v : α) : Runs settings env (pure v : Action σ α) fun w => .silent (.ok v, w) := by
  intro w trace
  simp only [Run.silent, Settings.kept_nil]
  rfl

/-- Actions one after the other are runs one after the other. -/
theorem Runs.bind {act : Action σ α} {next : α → Action σ β} {run : σ → Run σ α} {after : α → σ → Run σ β}
    (h : Runs settings env act run) (hn : ∀ v, Runs settings env (next v) (after v)) :
    Runs settings env (act >>= next) fun w => (run w).andThen after := by
  intro w trace
  have hact := h w trace
  beta_reduce
  cases ho : (run w).outcome with
  | error e =>
    rw [ho] at hact
    rw [bind_error hact, Run.andThen_of_error ho]
  | ok v =>
    rw [ho] at hact
    rw [bind_ok hact, hn v, Run.andThen_of_ok ho, Settings.kept_append]

/-- Combining values is a run without events. -/
theorem runs_combine (f : Form) (values : List Form) :
    Runs settings env (combine host f values) fun w => .silent (f.combine host env.bindings values w) := by
  intro w trace
  simp only [Run.silent, Settings.kept_nil]
  rfl

/-- Evaluating members runs them one after the other. -/
theorem runs_evalMembers {fs : List Form} {run : Form → σ → Run σ Form}
    (h : ∀ f ∈ fs, Runs settings env (f.eval host settings) (run f)) :
    Runs settings env (evalMembers host settings fs) (Run.all (fs.map run)) := by
  induction fs with
  | nil => exact runs_pure []
  | cons f fs ih =>
    obtain ⟨hf, hfs⟩ := List.forall_mem_cons.mp h
    exact hf.bind fun v => (ih hfs).bind fun vs => runs_pure (v :: vs)

/-- Work one level deeper is a run between the beginning and the end of the form. -/
theorem Runs.within {work : Action σ Form} {run : σ → Run σ Form}
    (h : Runs settings { env with depth := env.depth + 1 } work run) (f : Form) :
    Runs settings env (within host settings f work)
      ((⟨host, settings.maxDepth, env.bindings⟩ : Surroundings σ).around f env.depth run) := by
  intro w trace
  unfold Action.within Surroundings.around Surroundings.begin Environment.enterCall
  by_cases hint : host.interrupted w = true
  · simp [hint, Run.andThen]
  · by_cases hlimit : settings.maxDepth ≤ env.depth
    · simp [hint, hlimit, Run.andThen]
    · have hwork := h w (settings.kept trace [.enter env.depth f])
      simp only [hint, hlimit, Bool.false_eq_true, if_false, Machine.record_eq, hwork]
      cases ho : (run w).outcome with
      | error e => simp only [Run.andThen, ho, Settings.kept_append, Environment.exitCall, Nat.add_sub_cancel]
      | ok v => simp only [Run.andThen, ho, Settings.kept_append, Environment.exitCall, Nat.add_sub_cancel]

end Action

/-- The evaluation of a form is its run. -/
theorem Form.eval_runs (host : Host σ) (settings : Settings) (env : Environment) (f : Form) :
    Action.Runs settings env (f.eval host settings)
      (f.run ⟨host, settings.maxDepth, env.bindings⟩ env.depth) := by
  induction f using Form.induction_children generalizing env with
  | h f ih =>
    rw [Form.eval_eq_within, Action.work_eq, Form.run_eq]
    refine Action.Runs.within ?_ f
    exact (Action.runs_evalMembers fun c hc => ih c hc { env with depth := env.depth + 1 }).bind (Action.runs_combine f)

/-- Evaluation on a machine gives the outcome of the run, leaves the state of the host that the run leaves, and adds the events of
the run to the trace. -/
theorem eval_eq_run (host : Host σ) (settings : Settings) (f : Form) (m : Machine σ) :
    f.eval host settings m =
      ((f.run ⟨host, settings.maxDepth, m.env.bindings⟩ m.env.depth m.world).outcome,
        ⟨m.env, (f.run ⟨host, settings.maxDepth, m.env.bindings⟩ m.env.depth m.world).world,
          settings.kept m.trace (f.run ⟨host, settings.maxDepth, m.env.bindings⟩ m.env.depth m.world).events⟩) :=
  f.eval_runs host settings m.env m.world m.trace

/-! ## Traces do not matter -/

/-- Whether two machines agree in all but their traces. -/
def Machine.Agrees (m n : Machine σ) : Prop := m.env = n.env ∧ m.world = n.world

/-- Evaluation with a trace or without one leads machines that agree in all but their traces to the same result, and to such
machines again. -/
theorem eval_alike (host : Host σ) {s t : Settings} (h : s.maxDepth = t.maxDepth) (f : Form) {m n : Machine σ}
    (hmn : m.Agrees n) : (f.eval host s m).1 = (f.eval host t n).1 ∧ (f.eval host s m).2.Agrees (f.eval host t n).2 := by
  obtain ⟨henv, hworld⟩ := hmn
  rw [eval_eq_run, eval_eq_run, henv, hworld, h]
  exact ⟨rfl, rfl, rfl⟩

end TinyLisp

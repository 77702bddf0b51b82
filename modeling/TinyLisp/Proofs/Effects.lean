import Mathlib
import TinyLisp.Proofs.Routines
import TinyLisp.Proofs.Run

/-!
# Effects in post-order

Only lists that are not empty call functions, each at most once and after its members have values. To say when, evaluation is
compared with a replay of the post-order of the form: the forms in that order take the values of their children from a stack and
leave their own there, up to the first that has none (`replay`). Levels of depth do not occur in it. Where evaluation has depth
enough and is not interrupted, it leads to what the replay leads to (`eval_eq_replay`).

The calls of an evaluation are seen by a host that keeps a journal of them (`Host.journaled`).
-/

namespace TinyLisp

variable {σ α : Type}

/-! ## Hosts that are not interrupted -/

/-- The state of a host after calls of functions. -/
def Host.after (host : Host σ) (w : σ) (calls : List (Builtin × List Form)) : σ :=
  calls.foldl (fun w c => (host.call c.1 c.2 w).2) w

/-- Whether the interrupt flag is down and no calls raise it. -/
def Host.Calm (host : Host σ) (w : σ) : Prop := ∀ calls, host.interrupted (host.after w calls) = false

namespace Host.Calm

variable {host : Host σ} {w : σ}

/-- On a calm host the flag is down. -/
theorem interrupted (h : host.Calm w) : host.interrupted w = false := h []

/-- Applying a form keeps a host calm. -/
theorem apply (h : host.Calm w) (f : Form) (args : List Form) : host.Calm (host.apply f args w).2 := by
  rcases host.apply_cases f args w with ⟨e, he⟩ | ⟨b, -, -, hb⟩
  · rw [he]
    exact h
  · rw [hb]
    exact fun calls => h ((b, args) :: calls)

/-- Combining values keeps a host calm. -/
theorem combine (h : host.Calm w) (bindings : List (String × Form)) (f : Form) (values : List Form) :
    host.Calm (f.combine host bindings values w).2 := by
  unfold Form.combine
  split
  · exact h
  · exact h.apply _ _
  · exact h
  · exact h
  · exact h

end Host.Calm

/-- A host that runs routines is calm where its flag is down. -/
theorem World.host_calm_iff {flag : Nat} {w : World} : (World.host flag).Calm w ↔ w.isRaised flag = false := by
  constructor
  · exact fun h => h.interrupted
  · intro h calls
    induction calls generalizing w with
    | nil => exact h
    | cons c calls ih =>
      have hraised : ((World.host flag).call c.1 c.2 w).2.isRaised flag = w.isRaised flag :=
        congrArg (List.contains · flag) (c.1.raised_run c.2 w)
      exact ih (hraised.trans h)

/-! ## Replaying the post-order -/

/-- A form and those that are evaluated for it, in the order in which their evaluations end. -/
def Form.postorder : Form → List Form := Form.fold fun f orders => orders.flatten ++ [f]

/-- A form comes after its children, and they come in order. -/
theorem Form.postorder_eq (f : Form) : f.postorder = (f.children.map Form.postorder).flatten ++ [f] := Form.fold_eq _ f

/-- A step of a replay: a form, the values of its children, and what it makes of them. -/
structure Step where
  form : Form
  operands : List Form
  outcome : Except EvalError Form

/-- The call that a step makes. A list that is not empty calls the first value, if that is a function that takes as many arguments
as there are other values, and these are the arguments. -/
def Step.call? (s : Step) : Option (Builtin × List Form) :=
  match s.form, s.operands with
  | .seq .list _ _, .builtin b :: args =>
    match b.checkArity args.length with
    | .ok () => some (b, args)
    | .error _ => none
  | _, _ => none

/-- What a replay leads to: the steps made, the values left on the stack, latest first, and the state of the host. -/
structure Replay (σ : Type) where
  steps : List Step
  outcome : Except EvalError (List Form)
  world : σ

/-- The calls of a replay. -/
def Replay.calls (r : Replay σ) : List (Builtin × List Form) := r.steps.filterMap Step.call?

/-- Takes forms one after the other, up to the first that has no value. Each takes the values of its children from the stack and
leaves its own there. -/
def replay (host : Host σ) (bindings : List (String × Form)) : List Form → List Form → σ → Replay σ
  | [], stack, w => ⟨[], .ok stack, w⟩
  | f :: fs, stack, w =>
    let operands := (stack.take f.children.length).reverse
    match f.combine host bindings operands w with
    | (.error e, w') => ⟨[⟨f, operands, .error e⟩], .error e, w'⟩
    | (.ok v, w') =>
      let rest := replay host bindings fs (v :: stack.drop f.children.length) w'
      { rest with steps := ⟨f, operands, .ok v⟩ :: rest.steps }

variable {host : Host σ} {bindings : List (String × Form)}

/-- A replay stops at a form that has no value. -/
theorem replay_of_error {f : Form} {stack : List Form} {w w' : σ} {e : EvalError}
    (h : f.combine host bindings (stack.take f.children.length).reverse w = (.error e, w')) (fs : List Form) :
    replay host bindings (f :: fs) stack w =
      ⟨[⟨f, (stack.take f.children.length).reverse, .error e⟩], .error e, w'⟩ := by
  rw [replay, h]

/-- A replay goes on from the value of a form. -/
theorem replay_of_ok {f v : Form} {stack : List Form} {w w' : σ}
    (h : f.combine host bindings (stack.take f.children.length).reverse w = (.ok v, w')) (fs : List Form) :
    replay host bindings (f :: fs) stack w =
      ⟨⟨f, (stack.take f.children.length).reverse, .ok v⟩ ::
          (replay host bindings fs (v :: stack.drop f.children.length) w').steps,
        (replay host bindings fs (v :: stack.drop f.children.length) w').outcome,
        (replay host bindings fs (v :: stack.drop f.children.length) w').world⟩ := by
  rw [replay, h]

/-- A replay makes its steps for the forms in order. Either it makes them all and all have values, or the last one made has none,
and its error is the outcome. -/
theorem replay_steps (host : Host σ) (bindings : List (String × Form)) (fs stack : List Form) (w : σ) :
    (∀ values, (replay host bindings fs stack w).outcome = .ok values →
        (replay host bindings fs stack w).steps.map Step.form = fs ∧
          ∀ s ∈ (replay host bindings fs stack w).steps, ∃ v, s.outcome = .ok v) ∧
      ∀ e, (replay host bindings fs stack w).outcome = .error e →
        (replay host bindings fs stack w).steps.map Step.form <+: fs ∧
          ∃ before last, (replay host bindings fs stack w).steps = before ++ [last] ∧ last.outcome = .error e ∧
            ∀ s ∈ before, ∃ v, s.outcome = .ok v := by
  induction fs generalizing stack w with
  | nil => exact ⟨fun _ _ => ⟨rfl, nofun⟩, nofun⟩
  | cons f fs ih =>
    rcases hc : f.combine host bindings (stack.take f.children.length).reverse w with ⟨e | v, w'⟩
    · rw [replay_of_error hc]
      refine ⟨nofun, fun e' he => ⟨List.prefix_append [f] fs, [], _, rfl, ?_, nofun⟩⟩
      cases he
      rfl
    · rw [replay_of_ok hc]
      obtain ⟨hok, herror⟩ := ih (v :: stack.drop f.children.length) w'
      refine ⟨fun values hvalues => ?_, fun e he => ?_⟩
      · obtain ⟨hforms, hall⟩ := hok values hvalues
        exact ⟨congrArg (f :: ·) hforms, List.forall_mem_cons.mpr ⟨⟨v, rfl⟩, hall⟩⟩
      · obtain ⟨hforms, before, last, hsteps, hlast, hbefore⟩ := herror e he
        refine ⟨(List.prefix_cons_inj f).mpr hforms, _ :: before, last, congrArg (_ :: ·) hsteps, hlast, ?_⟩
        exact List.forall_mem_cons.mpr ⟨⟨v, rfl⟩, hbefore⟩

/-! ## Evaluation is a replay -/

/-- What a replay leads to, apart from its steps. -/
def Replay.ending (r : Replay σ) : Except EvalError (List Form) × σ := (r.outcome, r.world)

/-- Whether a run stays calm and does what the replay of the given order does, whatever comes after it: it ends in an error as the
replay does, or its value is pushed where the replay leaves values on the stack. -/
def Run.Replays (host : Host σ) (bindings : List (String × Form)) (push : α → List Form → List Form)
    (order : List Form) (w : σ) (r : Run σ α) : Prop :=
  host.Calm r.world ∧ ∀ rest stack, (replay host bindings (order ++ rest) stack w).ending =
    match r.outcome with
    | .ok v => (replay host bindings rest (push v stack) r.world).ending
    | .error e => (.error e, r.world)

/-- Runs of forms one after the other replay the orders of the forms one after the other. -/
theorem replays_all {run : Form → σ → Run σ Form} {fs : List Form}
    (h : ∀ f ∈ fs, ∀ w, host.Calm w → (run f w).Replays host bindings List.cons f.postorder w) {w : σ} (hw : host.Calm w) :
    (Run.all (fs.map run) w).Replays host bindings (fun values stack => values.reverse ++ stack)
      (fs.map Form.postorder).flatten w := by
  induction fs generalizing w with
  | nil => exact ⟨hw, fun _ _ => rfl⟩
  | cons f fs ih =>
    obtain ⟨hf, hfs⟩ := List.forall_mem_cons.mp h
    obtain ⟨hcalm, hreplay⟩ := hf w hw
    rw [List.map_cons, List.map_cons, List.flatten_cons, Run.all]
    cases ho : (run f w).outcome with
    | error e =>
      rw [Run.andThen_of_error ho]
      refine ⟨hcalm, fun rest stack => ?_⟩
      rw [List.append_assoc, hreplay, ho]
    | ok v =>
      obtain ⟨hcalm', hreplay'⟩ := ih hfs hcalm
      rw [Run.andThen_of_ok ho]
      cases ho' : (Run.all (fs.map run) (run f w).world).outcome with
      | error e =>
        rw [Run.andThen_of_error ho']
        refine ⟨hcalm', fun rest stack => ?_⟩
        rw [List.append_assoc, hreplay, ho]
        simp only [hreplay', ho']
      | ok vs =>
        rw [Run.andThen_of_ok ho']
        refine ⟨hcalm', fun rest stack => ?_⟩
        rw [List.append_assoc, hreplay, ho]
        simp only [hreplay', ho', Run.silent, List.reverse_cons, List.append_assoc, List.singleton_append]

/-- Where a form has depth enough and the host is calm, the run of the form replays its post-order. -/
theorem Form.run_replays {s : Surroundings σ} (f : Form) {depth : Nat} {w : σ} (hfits : depth + f.height ≤ s.limit)
    (hw : s.host.Calm w) : (f.run s depth w).Replays s.host s.bindings List.cons f.postorder w := by
  induction f using Form.induction_children generalizing depth w with
  | h f ih =>
    obtain ⟨hdepth, hchildren⟩ := Form.add_height_le_iff.mp hfits
    obtain ⟨hcalm, hreplay⟩ := replays_all (fun c hc w hw => ih c hc (hchildren c hc) hw) hw
    rw [Form.run_eq, Surroundings.around_eq hw.interrupted hdepth, Form.postorder_eq, Surroundings.work]
    cases ho : (Run.all (f.children.map fun c => c.run s (depth + 1)) w).outcome with
    | error e =>
      rw [Run.andThen_of_error ho]
      refine ⟨hcalm, fun rest stack => ?_⟩
      rw [List.append_assoc, hreplay, ho]
    | ok values =>
      have hlength : f.children.length = values.length :=
        (Run.forall₂_of_all_eq_ok (R := fun _ _ => True) (fun _ _ _ _ _ => trivial) ho).length_eq
      rw [Run.andThen_of_ok ho]
      refine ⟨hcalm.combine s.bindings f values, fun rest stack => ?_⟩
      -- The values of the children are on the top of the stack, the last one first.
      have htake : ((values.reverse ++ stack).take f.children.length).reverse = values := by
        rw [hlength, ← List.length_reverse, List.take_left, List.reverse_reverse]
      have hdrop : (values.reverse ++ stack).drop f.children.length = stack := by
        rw [hlength, ← List.length_reverse, List.drop_left]
      rw [List.append_assoc, hreplay, ho, List.singleton_append]
      rcases hc : f.combine s.host s.bindings values (Run.all (f.children.map fun c => c.run s (depth + 1)) w).world with
        ⟨e | v, w'⟩
      · simp only [replay_of_error (htake.symm ▸ hc), Run.silent, hc]
        rfl
      · simp only [replay_of_ok (htake.symm ▸ hc), Run.silent, hc, hdrop]
        rfl

/-- Where a form has depth enough and the host is calm, evaluation leads to what the replay of its post-order leads to. -/
theorem eval_eq_replay {settings : Settings} {f : Form} {m : Machine σ} (hfits : m.env.depth + f.height ≤ settings.maxDepth)
    (hcalm : host.Calm m.world) :
    ((f.eval host settings m).1.map fun v => [v], (f.eval host settings m).2.world) =
      (replay host m.env.bindings f.postorder [] m.world).ending := by
  obtain ⟨-, hreplay⟩ := f.run_replays (s := ⟨host, settings.maxDepth, m.env.bindings⟩) hfits hcalm
  have hending := hreplay [] []
  rw [List.append_nil] at hending
  rw [hending, eval_eq_run]
  cases (f.run ⟨host, settings.maxDepth, m.env.bindings⟩ m.env.depth m.world).outcome <;> rfl

/-! ## Journals -/

/-- A host that keeps a journal of the calls of functions, the latest last. -/
def Host.journaled (host : Host σ) : Host (σ × List (Builtin × List Form)) where
  call b args s := ((host.call b args s.1).1, (host.call b args s.1).2, s.2 ++ [(b, args)])
  interrupted s := host.interrupted s.1

/-- Keeping a journal raises no flag. -/
theorem Host.Calm.journaled {w : σ} (h : host.Calm w) (journal : List (Builtin × List Form)) :
    host.journaled.Calm (w, journal) := by
  intro calls
  induction calls generalizing w journal with
  | nil => exact h.interrupted
  | cons c calls ih => exact ih (fun calls => h (c :: calls)) _

/-- What a step makes of the values does not depend on the journal, and the journal gets the call of the step. -/
theorem combine_journaled (host : Host σ) (bindings : List (String × Form)) (f : Form) (values : List Form) (w : σ)
    (journal : List (Builtin × List Form)) (outcome : Except EvalError Form) :
    f.combine host.journaled bindings values (w, journal) =
      ((f.combine host bindings values w).1, (f.combine host bindings values w).2,
        journal ++ (Step.call? ⟨f, values, outcome⟩).toList) := by
  rcases f with _ | _ | _ | _ | _ | ⟨_ | _, delims, members⟩ | _ | _
  case seq.list =>
    rcases values with _ | ⟨head, args⟩
    · simp [Form.combine, Step.call?]
    · cases head with
      | builtin b =>
        cases hb : b.checkArity args.length with
        | error e => simp [Form.combine, Host.apply, Step.call?, hb]
        | ok => simp [Form.combine, Host.apply, Step.call?, hb, Host.journaled]
      | _ => simp [Form.combine, Host.apply, Step.call?]
  all_goals simp [Form.combine, Step.call?]

/-- A replay does not depend on the journal, and the journal gets the calls of the replay. -/
theorem replay_journaled (fs stack : List Form) (w : σ) (journal : List (Builtin × List Form)) :
    replay host.journaled bindings fs stack (w, journal) =
      ⟨(replay host bindings fs stack w).steps, (replay host bindings fs stack w).outcome,
        (replay host bindings fs stack w).world, journal ++ (replay host bindings fs stack w).calls⟩ := by
  induction fs generalizing stack w journal with
  | nil => simp [replay, Replay.calls]
  | cons f fs ih =>
    have hjournal := combine_journaled host bindings f (stack.take f.children.length).reverse w journal
    rcases hc : f.combine host bindings (stack.take f.children.length).reverse w with ⟨e | v, w'⟩
    · rw [hc] at hjournal
      rw [replay_of_error hc, replay_of_error (hjournal (.error e))]
      simp [Replay.calls, List.filterMap_eq_flatMap_toList]
    · rw [hc] at hjournal
      rw [replay_of_ok hc, replay_of_ok (hjournal (.ok v)), ih]
      simp [Replay.calls, List.filterMap_eq_flatMap_toList]

/-- Effects happen once, in post-order, and stop at the first failure. Where a form has depth enough and the host is calm,
evaluation calls the functions that the replay of the post-order calls, and leaves the state of the host that it leaves. Where the
form has a value, the replay makes a step for every form of the post-order; where it has none, the replay makes steps for the
first of them only, of which the last one fails with the error and the others do not fail. -/
theorem effects_in_postorder (host : Host σ) (settings : Settings) (f : Form) (env : Environment) (w : σ)
    (trace : Array Event) (journal : List (Builtin × List Form)) (hfits : env.depth + f.height ≤ settings.maxDepth)
    (hcalm : host.Calm w) :
    let r := replay host env.bindings f.postorder [] w
    (f.eval host settings ⟨env, w, trace⟩).2.world = r.world ∧
      (f.eval host.journaled settings ⟨env, (w, journal), trace⟩).1 = (f.eval host settings ⟨env, w, trace⟩).1 ∧
      (f.eval host.journaled settings ⟨env, (w, journal), trace⟩).2.world = (r.world, journal ++ r.calls) ∧
      (∀ v, (f.eval host settings ⟨env, w, trace⟩).1 = .ok v →
        r.outcome = .ok [v] ∧ r.steps.map Step.form = f.postorder ∧ ∀ s ∈ r.steps, ∃ u, s.outcome = .ok u) ∧
      ∀ e, (f.eval host settings ⟨env, w, trace⟩).1 = .error e →
        r.steps.map Step.form <+: f.postorder ∧
          ∃ before last, r.steps = before ++ [last] ∧ last.outcome = .error e ∧ ∀ s ∈ before, ∃ u, s.outcome = .ok u := by
  intro r
  obtain ⟨houtcome, hworld⟩ := Prod.mk.inj (eval_eq_replay (m := ⟨env, w, trace⟩) hfits hcalm)
  have hjournaled := eval_eq_replay (m := ⟨env, (w, journal), trace⟩) hfits (hcalm.journaled journal)
  rw [replay_journaled] at hjournaled
  obtain ⟨houtcome', hworld'⟩ := Prod.mk.inj hjournaled
  have hinj : ∀ a b : Except EvalError Form, (a.map fun v => [v]) = b.map (fun v => [v]) → a = b := by
    rintro (e | v) (e' | v') h <;> cases h <;> rfl
  obtain ⟨hok, herror⟩ := replay_steps host env.bindings f.postorder [] w
  refine ⟨hworld, hinj _ _ (houtcome'.trans houtcome.symm), hworld', fun v hv => ?_, fun e he => ?_⟩
  · have hvalues : r.outcome = .ok [v] := by
      rw [← houtcome, hv]
      rfl
    exact ⟨hvalues, hok _ hvalues⟩
  · refine herror e ?_
    rw [← houtcome, he]
    rfl

/-- Of three ticks in a vector, the second of which is applied to an argument, only the first one is called. -/
theorem effects_in_postorder_ticks :
    let tick : Builtin := ⟨"tick", 0, ⟨.tick, 0⟩⟩
    let call : List Form → Form := fun args => .list (.symbol "tick" none :: args)
    let f : Form := .vector [call [], call [.bool true], call []]
    let env : Environment := ({} : Environment).defineBuiltin tick
    (World.host 0).Calm {} ∧
      (f.eval (World.host 0) {} ⟨env, {}, #[]⟩).1 = .error (.arityMismatch "tick" 0 1) ∧
      (f.eval (World.host 0) {} ⟨env, {}, #[]⟩).2.world = ⟨[0], []⟩ ∧
      (f.eval (World.host 0).journaled {} ⟨env, ({}, []), #[]⟩).2.world = (⟨[0], []⟩, [(tick, [])]) := by
  intro tick call f env
  have hcalm : (World.host 0).Calm {} := World.host_calm_iff.mpr rfl
  have hfits : 0 + f.height ≤ 1000 := by decide
  obtain ⟨hworld, -, hjournal, -⟩ := effects_in_postorder (World.host 0) {} f env {} #[] [] hfits hcalm
  refine ⟨hcalm, ?_, hworld.trans ?_, hjournal.trans ?_⟩
  all_goals
    simp only [f, env, call, tick]
    cbv

end TinyLisp

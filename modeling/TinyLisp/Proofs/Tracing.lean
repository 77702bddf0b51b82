import TinyLisp.Proofs.Run
import TinyLisp.Routine

/-!
# What a trace shows

`Form.block` is the part of a trace that belongs to a form: its beginning, the blocks of its children in order, and its end if it
has a value. The values that it shows are those of evaluations without a trace. A traced evaluation adds the block of its form and
changes nothing else (`trace_is_block`).

Values apart, the block is known from the form and the depth alone: it is `Form.moments` where the form has a value, and otherwise
a beginning of it.
-/

namespace TinyLisp

variable {σ α β : Type}

/-! ## Moments -/

/-- What an event says apart from values. -/
inductive Moment where
  /-- The evaluation of a form begins. -/
  | enter (depth : Nat) (form : Form)
  /-- The evaluation that began last at the depth ends. -/
  | exit (depth : Nat)

/-- What an event says apart from values. -/
def Event.moment : Event → Moment
  | .enter depth form => .enter depth form
  | .exit depth _ => .exit depth

/-- The moments of a whole evaluation of a form at a depth. -/
def Form.moments : Form → Nat → List Moment :=
  Form.fold fun f inner depth => .enter depth f :: (inner.map fun moments => moments (depth + 1)).flatten ++ [.exit depth]

/-- The moments of the children are between the first moment and the last one. -/
theorem Form.moments_eq (f : Form) (depth : Nat) :
    f.moments depth =
      .enter depth f :: (f.children.map fun c => c.moments (depth + 1)).flatten ++ [.exit depth] := by
  rw [moments, Form.fold_eq, List.map_map]
  rfl

/-- Whether the events of a run are at the given moments, of which the last ones come only where there is a value. -/
structure Run.Follows (before after : List Moment) (r : Run σ α) : Prop where
  of_ok : ∀ v, r.outcome = .ok v → r.events.map Event.moment = before ++ after
  of_error : ∀ e, r.outcome = .error e → r.events.map Event.moment <+: before

namespace Run.Follows

variable {p q p' q' : List Moment}

/-- A run without events has no moments. -/
theorem silent (result : Except EvalError α × σ) : (Run.silent result).Follows [] [] where
  of_ok _ _ := rfl
  of_error _ _ := List.nil_prefix

/-- Where the last moments do not come, all moments are still a beginning of those wanted. -/
theorem weaken {r : Run σ α} (h : r.Follows p q) : r.Follows (p ++ q) [] where
  of_ok v hv := by rw [h.of_ok v hv, List.append_nil]
  of_error e he := (h.of_error e he).trans (List.prefix_append p q)

/-- Moments of runs one after the other. -/
theorem andThen {r : Run σ α} {next : α → σ → Run σ β} (h : r.Follows p q) (hn : ∀ v w, (next v w).Follows p' q') :
    (r.andThen next).Follows (p ++ q ++ p') q' := by
  cases ho : r.outcome with
  | error e =>
    rw [andThen_of_error ho]
    refine ⟨nofun, fun _ _ => ?_⟩
    rw [List.append_assoc]
    exact (h.of_error e ho).trans (List.prefix_append p _)
  | ok v =>
    have hnext := hn v r.world
    rw [andThen_of_ok ho]
    refine ⟨fun u hu => ?_, fun e he => ?_⟩
    · rw [List.map_append, h.of_ok v ho, hnext.of_ok u hu, List.append_assoc (p ++ q)]
    · rw [List.map_append, h.of_ok v ho]
      exact (List.prefix_append_right_inj _).mpr (hnext.of_error e he)

/-- Moments of many runs one after the other. -/
theorem all {run : Form → σ → Run σ α} {moments : Form → List Moment} {fs : List Form}
    (h : ∀ f ∈ fs, ∀ w, (run f w).Follows (moments f) []) (w : σ) :
    (Run.all (fs.map run) w).Follows (fs.map moments).flatten [] := by
  induction fs generalizing w with
  | nil => exact silent _
  | cons f fs ih =>
    obtain ⟨hf, hfs⟩ := List.forall_mem_cons.mp h
    have hall := (hf w).andThen fun v w => (ih hfs w).andThen fun vs w => silent (.ok (v :: vs), w)
    simp only [List.append_nil] at hall
    exact hall

end Run.Follows

/-- The events of a run are at the moments of the form, up to where it fails, and the last moment comes only where it has a
value. -/
theorem Form.run_follows (s : Surroundings σ) (f : Form) (depth : Nat) (w : σ) :
    (f.run s depth w).Follows (.enter depth f :: (f.children.map fun c => c.moments (depth + 1)).flatten) [.exit depth] := by
  induction f using Form.induction_children generalizing depth w with
  | h f ih =>
    have hbegin : (s.begin f depth w).Follows [] [.enter depth f] := by
      unfold Surroundings.begin
      split
      · exact ⟨nofun, fun _ _ => List.nil_prefix⟩
      · split
        · exact ⟨nofun, fun _ _ => List.nil_prefix⟩
        · exact ⟨fun _ _ => rfl, nofun⟩
    have hchild : ∀ c ∈ f.children, ∀ w, (c.run s (depth + 1) w).Follows (c.moments (depth + 1)) [] := by
      intro c hc w
      rw [Form.moments_eq]
      exact (ih c hc (depth + 1) w).weaken
    have hfinish : ∀ v w, (⟨[.exit depth v], .ok v, w⟩ : Run σ Form).Follows [] [.exit depth] :=
      fun v w => ⟨fun _ _ => rfl, nofun⟩
    have hall := hbegin.andThen fun _ w =>
      ((Run.Follows.all hchild w).andThen fun values w => Run.Follows.silent (f.combine s.host s.bindings values w)).andThen
        hfinish
    simp only [List.nil_append, List.append_nil, List.singleton_append] at hall
    rw [Form.run_eq]
    exact hall

/-! ## Blocks -/

section

variable (host : Host σ) (limit : Nat)

/-- The blocks of forms one after the other, up to the first that has no value. Where each begins is where the evaluation of the
one before ends. -/
def blocksInOrder : List (Form × (Machine σ → List Event)) → Machine σ → List Event
  | [], _ => []
  | (f, block) :: rest, m =>
    match f.eval host ⟨limit, false⟩ m with
    | (.ok _, m') => block m ++ blocksInOrder rest m'
    | (.error _, _) => block m

/-- The block of a form on a machine: nothing where evaluation does not begin, and otherwise the beginning of the form, the blocks
of its children one level deeper and, if the form has a value, its end. -/
def Form.block : Form → Machine σ → List Event :=
  Form.fold fun f blocks m =>
    if host.interrupted m.world ∨ limit ≤ m.env.depth then []
    else
      .enter m.env.depth f ::
        blocksInOrder host limit (f.children.zip blocks) { m with env := { m.env with depth := m.env.depth + 1 } } ++
          Event.closing m.env.depth (f.eval host ⟨limit, false⟩ m).1

end

variable {host : Host σ} {limit : Nat}

/-- A block consists of the beginning, the blocks of the children and the end. -/
theorem Form.block_eq (f : Form) (m : Machine σ) :
    f.block host limit m =
      if host.interrupted m.world ∨ limit ≤ m.env.depth then []
      else
        .enter m.env.depth f ::
          blocksInOrder host limit (f.children.map fun c => (c, c.block host limit))
            { m with env := { m.env with depth := m.env.depth + 1 } } ++
          Event.closing m.env.depth (f.eval host ⟨limit, false⟩ m).1 := by
  have hzip : f.children.zip (f.children.map (Form.block host limit)) = f.children.map fun c => (c, c.block host limit) := by
    simpa using List.zip_map' (l := f.children) (f := id) (g := Form.block host limit)
  rw [← hzip]
  exact congrFun (Form.fold_eq _ f) m

/-- The blocks of forms one after the other are the events of their runs one after the other. -/
theorem blocksInOrder_eq_events {fs : List Form}
    (h : ∀ f ∈ fs, ∀ m : Machine σ,
      f.block host limit m = (f.run ⟨host, limit, m.env.bindings⟩ m.env.depth m.world).events) (m : Machine σ) :
    blocksInOrder host limit (fs.map fun f => (f, f.block host limit)) m =
      (Run.all (fs.map fun f => f.run ⟨host, limit, m.env.bindings⟩ m.env.depth) m.world).events := by
  induction fs generalizing m with
  | nil => rfl
  | cons f fs ih =>
    obtain ⟨hf, hfs⟩ := List.forall_mem_cons.mp h
    rw [List.map_cons, List.map_cons, blocksInOrder, eval_eq_run, Run.all, hf m]
    cases ho : (f.run ⟨host, limit, m.env.bindings⟩ m.env.depth m.world).outcome with
    | error e => rw [Run.andThen_of_error ho]
    | ok v =>
      have hrest := ih hfs ⟨m.env, (f.run ⟨host, limit, m.env.bindings⟩ m.env.depth m.world).world, m.trace⟩
      rw [Run.andThen_of_ok ho, Run.events_andThen_silent]
      exact congrArg (_ ++ ·) hrest

/-- The block of a form holds the events of its run. -/
theorem Form.block_eq_events (f : Form) (m : Machine σ) :
    f.block host limit m = (f.run ⟨host, limit, m.env.bindings⟩ m.env.depth m.world).events := by
  induction f using Form.induction_children generalizing m with
  | h f ih =>
    rw [Form.block_eq, blocksInOrder_eq_events ih, eval_eq_run, Form.run_eq]
    by_cases hint : host.interrupted m.world = true
    · simp [hint, Surroundings.around, Surroundings.begin, Run.andThen]
    · by_cases hlimit : limit ≤ m.env.depth
      · simp [hint, hlimit, Surroundings.around, Surroundings.begin, Run.andThen]
      · rw [Surroundings.around_eq (by simpa using hint) (Nat.lt_of_not_le hlimit)]
        simp only [hint, hlimit, or_self, if_false, Bool.false_eq_true, Surroundings.work, Run.events_andThen_silent]

/-- A printed form is its spelling. -/
theorem Form.toList_print (mode : PrintMode) (f : Form) : (f.print mode).toList = f.spell mode := String.toList_ofList

/-- A trace shows the tree of the evaluation. A traced evaluation has the result of one without a trace and leaves the same, but
for the block of the form, which it adds to the trace. Where the form has a value, the block is at all moments of the form; where
it has none, the block stops before the last moment, if not earlier. Events are written as lines that are indented by twice their
depth. -/
theorem trace_is_block (host : Host σ) (limit : Nat) (f : Form) (m : Machine σ) :
    f.eval host ⟨limit, true⟩ m =
        ((f.eval host ⟨limit, false⟩ m).1,
          { (f.eval host ⟨limit, false⟩ m).2 with trace := m.trace ++ (f.block host limit m).toArray }) ∧
      (f.eval host ⟨limit, false⟩ m).2.trace = m.trace ∧
      (∀ v, (f.eval host ⟨limit, false⟩ m).1 = .ok v →
        (f.block host limit m).map Event.moment = f.moments m.env.depth) ∧
      (∀ e, (f.eval host ⟨limit, false⟩ m).1 = .error e →
        ∃ rest, f.moments m.env.depth = (f.block host limit m).map Event.moment ++ rest ++ [.exit m.env.depth]) ∧
      (∀ depth (g : Form), (Event.enter depth g).spell =
        List.replicate (2 * depth) ' ' ++ "eval: ".toList ++ (g.print .readable).toList ++ ['\n']) ∧
      ∀ depth (v : Form), (Event.exit depth v).spell =
        List.replicate (2 * depth) ' ' ++ "  => ".toList ++ (v.print .readable).toList ++ ['\n'] := by
  have hfollows := f.run_follows ⟨host, limit, m.env.bindings⟩ m.env.depth m.world
  have hsilent := eval_eq_run host ⟨limit, false⟩ f m
  have htraced := eval_eq_run host ⟨limit, true⟩ f m
  rw [htraced, hsilent, Form.block_eq_events]
  refine ⟨rfl, rfl, fun v hv => ?_, fun e he => ?_, fun depth g => ?_, fun depth v => ?_⟩
  · rw [hfollows.of_ok v hv, Form.moments_eq]
  · obtain ⟨rest, hrest⟩ := hfollows.of_error e he
    exact ⟨rest, by rw [hrest, Form.moments_eq]⟩
  · rw [Form.toList_print, Event.spell]
  · rw [Form.toList_print, Event.spell]

/-- Of a map whose key comes again both values are shown, in order and one level deeper, although one of them is replaced. -/
example :
    (Form.map {} [(.str "a" none, .bool true), (.str "a" none, .bool false)]).block (World.host 0) 1000 ⟨{}, {}, #[]⟩ =
      [.enter 0 (.map {} [(.str "a" none, .bool true), (.str "a" none, .bool false)]),
        .enter 1 (.bool true), .exit 1 (.bool true), .enter 1 (.bool false), .exit 1 (.bool false),
        .exit 0 (.map {} [(.str "a" none, .bool true), (.str "a" none, .bool false)])] := by
  rfl

end TinyLisp

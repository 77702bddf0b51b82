import TinyLisp.Proofs.Routines
import TinyLisp.Proofs.Run

/-!
# The limit of depth

Evaluating a form at a depth takes as many levels as the form is high. So the limit decides by the height of the form alone whether
there is an overflow (`Form.run_decides`), and wherever there is none it does not show (`Form.run_eq_of_fits`). Both hold on hosts
whose functions never report an overflow of their own, and those that run routines are such hosts (`World.host_neverOverflows`).
-/

namespace TinyLisp

variable {σ α β : Type}

/-! ## Functions that report no overflow -/

/-- Whether no function of a host fails with an overflow. -/
def Host.NeverOverflows (host : Host σ) : Prop :=
  ∀ b args w depth limit, (host.call b args w).1 ≠ .error (.stackOverflow depth limit)

/-- Applying a form does not overflow where no function does. -/
theorem Host.NeverOverflows.apply {host : Host σ} (h : host.NeverOverflows) (f : Form) (args : List Form) (w : σ)
    (depth limit : Nat) : (host.apply f args w).1 ≠ .error (.stackOverflow depth limit) := by
  intro he
  cases f with
  | builtin b =>
    cases hb : b.checkArity args.length with
    | error e =>
      rw [Host.apply, hb] at he
      cases he
      exact b.checkArity_ne_overflow _ _ _ hb
    | ok =>
      rw [Host.apply, hb] at he
      exact h b args w depth limit he
  | _ => cases he

/-- Hosts that run routines have no functions that overflow. -/
theorem World.host_neverOverflows (flag : Nat) : (World.host flag).NeverOverflows := Builtin.run_ne_overflow

/-! ## What the limit decides -/

/-- Whether a run that has a limit gives a value only if something fits, and overflows only at the limit and if it does not fit. -/
structure Run.Decides (limit : Nat) (fits : Prop) (r : Run σ α) : Prop where
  of_ok : ∀ v, r.outcome = .ok v → fits
  of_overflow : ∀ depth bound, r.outcome = .error (.stackOverflow depth bound) → ¬fits ∧ depth = limit ∧ bound = limit

namespace Run.Decides

variable {limit : Nat} {p q : Prop}

/-- A run that does not overflow decides nothing. -/
theorem of_ne_overflow {r : Run σ α} (h : ∀ depth bound, r.outcome ≠ .error (.stackOverflow depth bound)) :
    r.Decides limit True where
  of_ok _ _ := True.intro
  of_overflow depth bound ho := (h depth bound ho).elim

/-- Two runs one after the other decide what both decide. -/
theorem andThen {r : Run σ α} {next : α → σ → Run σ β} (h : r.Decides limit p)
    (hn : ∀ v, r.outcome = .ok v → ∀ w, (next v w).Decides limit q) : (r.andThen next).Decides limit (p ∧ q) := by
  cases ho : r.outcome with
  | error e =>
    rw [andThen_of_error ho]
    refine ⟨nofun, fun depth bound he => ?_⟩
    cases he
    obtain ⟨hp, hlimit⟩ := h.of_overflow depth bound ho
    exact ⟨fun hpq => hp hpq.1, hlimit⟩
  | ok v =>
    rw [andThen_of_ok ho]
    obtain ⟨hok, hoverflow⟩ := hn v ho r.world
    refine ⟨fun u hu => ⟨h.of_ok v ho, hok u hu⟩, fun depth bound he => ?_⟩
    obtain ⟨hq, hlimit⟩ := hoverflow depth bound he
    exact ⟨fun hpq => hq hpq.2, hlimit⟩

/-- Runs one after the other decide what all of them decide. -/
theorem all {run : Form → σ → Run σ α} {fits : Form → Prop} {fs : List Form}
    (h : ∀ f ∈ fs, ∀ w, (run f w).Decides limit (fits f)) (w : σ) :
    (Run.all (fs.map run) w).Decides limit (∀ f ∈ fs, fits f) := by
  induction fs generalizing w with
  | nil => exact ⟨fun _ _ => nofun, nofun⟩
  | cons f fs ih =>
    obtain ⟨hf, hfs⟩ := List.forall_mem_cons.mp h
    have hall := (hf w).andThen fun v _ w' => (ih hfs w').andThen fun vs _ w'' =>
      of_ne_overflow (r := .silent (.ok (v :: vs), w'')) nofun
    rw [List.forall_mem_cons, ← and_true (∀ f ∈ fs, fits f)]
    exact hall

end Run.Decides

/-! ## The limit and the height of a form -/

/-- A form that is not too deep already begins only below the limit, and overflows only at the limit. -/
theorem Surroundings.begin_decides (s : Surroundings σ) (f : Form) {depth : Nat} (h : depth ≤ s.limit) (w : σ) :
    (s.begin f depth w).Decides s.limit (depth < s.limit) := by
  unfold begin
  split
  · exact ⟨nofun, nofun⟩
  · split
    · next hlimit =>
      refine ⟨nofun, fun d l he => ?_⟩
      cases he
      exact ⟨Nat.not_lt.mpr hlimit, Nat.le_antisymm h hlimit, rfl⟩
    · next hlimit => exact ⟨fun _ _ => Nat.lt_of_not_le hlimit, nofun⟩

/-- Combining values does not overflow where no function does. -/
theorem Form.combine_ne_overflow {host : Host σ} (h : host.NeverOverflows) (bindings : List (String × Form)) (f : Form)
    (values : List Form) (w : σ) (depth limit : Nat) :
    (f.combine host bindings values w).1 ≠ .error (.stackOverflow depth limit) := by
  unfold combine
  split
  · unfold Environment.lookup
    split <;> nofun
  · exact h.apply _ _ _ _ _
  · nofun
  · nofun
  · nofun

/-- A run decides whether the form fits between the depth where it starts and the limit. -/
theorem Form.run_decides {s : Surroundings σ} (hs : s.host.NeverOverflows) (f : Form) {depth : Nat} (h : depth ≤ s.limit)
    (w : σ) : (f.run s depth w).Decides s.limit (depth + f.height ≤ s.limit) := by
  induction f using Form.induction_children generalizing depth w with
  | h f ih =>
    rw [Form.run_eq, Form.add_height_le_iff]
    have hbegin := s.begin_decides f h w
    refine hbegin.andThen fun _ hok w => ?_
    have hdeeper : depth + 1 ≤ s.limit := hbegin.of_ok () hok
    have hinner := Run.Decides.all (fun c hc w => ih c hc hdeeper w) w
    have hwork := hinner.andThen fun values _ w =>
      Run.Decides.of_ne_overflow (r := .silent (f.combine s.host s.bindings values w))
        (f.combine_ne_overflow hs s.bindings values w)
    have hfinish := hwork.andThen fun v _ w => Run.Decides.of_ne_overflow (r := ⟨[.exit depth v], .ok v, w⟩) nofun
    rw [and_true, and_true] at hfinish
    exact hfinish

/-- A form does not even begin where the limit has been reached. -/
theorem Form.lt_of_run_eq_ok {s : Surroundings σ} {f v : Form} {depth : Nat} {w : σ}
    (h : (f.run s depth w).outcome = .ok v) : depth < s.limit := by
  obtain ⟨hbegin, -⟩ := Form.run_eq_ok_iff.mp h
  by_contra hlimit
  unfold Surroundings.begin at hbegin
  rw [if_pos (Nat.le_of_not_lt hlimit)] at hbegin
  split at hbegin <;> cases hbegin

/-- A form that has a value fits below the limit of depth. -/
theorem Form.fits_of_run_eq_ok {s : Surroundings σ} {f v : Form} {depth : Nat} {w : σ}
    (h : (f.run s depth w).outcome = .ok v) : depth + f.height ≤ s.limit := by
  induction f using Form.induction_children generalizing depth w v with
  | h f ih =>
    obtain ⟨-, values, hvalues, -⟩ := Form.run_eq_ok_iff.mp h
    have hchildren : List.Forall₂ (fun (c : Form) _ => depth + 1 + c.height ≤ s.limit) f.children values :=
      Run.forall₂_of_all_eq_ok (fun c hc _ _ hv => ih c hc hv) hvalues
    refine Form.add_height_le_iff.mpr ⟨Form.lt_of_run_eq_ok h, ?_⟩
    exact ((List.forall₂_and_left _ _).mp (hchildren.imp fun _ _ hc => ⟨hc, trivial⟩)).1

/-- The limit does not show in the run of a form that fits. -/
theorem Form.run_eq_of_fits {host : Host σ} {bindings : List (String × Form)} {limit limit' : Nat} (f : Form) {depth : Nat}
    (h : depth + f.height ≤ limit) (h' : depth + f.height ≤ limit') :
    f.run ⟨host, limit, bindings⟩ depth = f.run ⟨host, limit', bindings⟩ depth := by
  induction f using Form.induction_children generalizing depth with
  | h f ih =>
    obtain ⟨hd, hc⟩ := Form.add_height_le_iff.mp h
    obtain ⟨hd', hc'⟩ := Form.add_height_le_iff.mp h'
    have hchildren : f.children.map (fun c => c.run ⟨host, limit, bindings⟩ (depth + 1)) =
        f.children.map fun c => c.run ⟨host, limit', bindings⟩ (depth + 1) :=
      List.map_congr_left fun c hmem => ih c hmem (hc c hmem) (hc' c hmem)
    have hbegin : (⟨host, limit, bindings⟩ : Surroundings σ).begin f depth =
        (⟨host, limit', bindings⟩ : Surroundings σ).begin f depth := by
      funext w
      simp only [Surroundings.begin, Nat.not_le.mpr hd, Nat.not_le.mpr hd', if_false]
    rw [Form.run_eq, Form.run_eq, hchildren]
    unfold Surroundings.around
    rw [hbegin]
    rfl

/-- The limit of depth is exact, and shows nowhere else. A form that fits below the limit evaluates without an overflow, and the
same way below every such limit; a form that does not fit has no value; and an overflow tells the limit, if one starts below it. -/
theorem call_depth_limit_exact (host : Host σ) (hhost : host.NeverOverflows) (f : Form) (m : Machine σ) (trace : Bool)
    (limit : Nat) :
    (m.env.depth + f.height ≤ limit →
        (∀ depth bound, (f.eval host ⟨limit, trace⟩ m).1 ≠ .error (.stackOverflow depth bound)) ∧
          ∀ limit', m.env.depth + f.height ≤ limit' → f.eval host ⟨limit', trace⟩ m = f.eval host ⟨limit, trace⟩ m) ∧
      (limit < m.env.depth + f.height → ∀ v, (f.eval host ⟨limit, trace⟩ m).1 ≠ .ok v) ∧
      (m.env.depth ≤ limit → ∀ depth bound, (f.eval host ⟨limit, trace⟩ m).1 = .error (.stackOverflow depth bound) →
        depth = limit ∧ bound = limit) := by
  simp only [eval_eq_run]
  have hdecides : m.env.depth ≤ limit → _ := fun h => f.run_decides (s := ⟨host, limit, m.env.bindings⟩) hhost h m.world
  refine ⟨fun hfits => ⟨fun depth bound ho => ?_, fun limit' hfits' => ?_⟩, fun hdeep v hv => ?_, fun h depth bound ho => ?_⟩
  · have hdepth : m.env.depth ≤ limit := Nat.le_trans (Nat.le_add_right _ _) hfits
    exact ((hdecides hdepth).of_overflow depth bound ho).1 hfits
  · rw [f.run_eq_of_fits hfits' hfits]
    rfl
  · have hdepth : m.env.depth < limit := Form.lt_of_run_eq_ok hv
    exact Nat.not_le.mpr hdeep ((hdecides (Nat.le_of_lt hdepth)).of_ok v hv)
  · exact ((hdecides h).of_overflow depth bound ho).2

/-- The vector in a map counts although its key comes again: the map takes four levels, and with three there is an overflow. -/
theorem call_depth_limit_exact_replaced :
    let f : Form := .map {} [(.str "a" none, .vector [.vector [.bool true]]), (.str "a" none, .bool false)]
    let m : Machine World := ⟨{}, {}, #[]⟩
    (World.host 0).NeverOverflows ∧
      f.eval (World.host 0) ⟨1000, false⟩ m = f.eval (World.host 0) ⟨4, false⟩ m ∧
      (∀ v, (f.eval (World.host 0) ⟨3, false⟩ m).1 ≠ .ok v) ∧
      (f.eval (World.host 0) ⟨3, false⟩ m).1 = .error (.stackOverflow 3 3) := by
  intro f m
  have hhost := World.host_neverOverflows 0
  have hheight : f.height = 4 := by decide
  refine ⟨hhost, ?_, ?_, rfl⟩
  · refine ((call_depth_limit_exact _ hhost f m false 4).1 ?_).2 1000 ?_
    · exact Nat.le_of_eq (by rw [hheight])
    · rw [hheight]
      decide
  · exact (call_depth_limit_exact _ hhost f m false 3).2.1 (by rw [hheight]; decide)

end TinyLisp

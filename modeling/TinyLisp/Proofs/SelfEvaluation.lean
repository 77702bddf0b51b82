import TinyLisp.Proofs.Mapping
import TinyLisp.Proofs.Results

/-!
# Self-evaluation

Evaluation rebuilds every vector and every map on the way to their value, the index of a map included. An inert form comes out of
this as the very form it was, with its tokens and delimiters and with the replaced values of its maps, and a kept map with the
index it had. `inert_forms_self_evaluate` says so of every machine that has depth enough. It also says that no other form evaluates
to itself everywhere: where nothing is bound and no function gives a value, a form has a value exactly when it is inert and fits.
-/

namespace TinyLisp

variable {σ : Type} {host : Host σ} {settings : Settings} {m : Machine σ}

/-! ## Inert forms are their own values -/

instance : DecidablePred Form.StandsForItself
  | .symbol .. => .isFalse id
  | .seq .list _ members => inferInstanceAs (Decidable (members = []))
  | .int .. | .str .. | .keyword .. | .bool .. | .seq .vector .. | .map .. | .builtin .. => .isTrue trivial

instance : DecidablePred Form.Inert := fun f => inferInstanceAs (Decidable (∀ g ∈ f.parts, g.StandsForItself))

/-- On a machine that has depth enough and is not to stop, an inert form is its own value, and nothing but the trace changes. -/
theorem Form.Inert.eval {f : Form} (h : f.Inert) (hint : host.interrupted m.world = false)
    (hfits : m.env.depth + f.height ≤ settings.maxDepth) :
    ∃ trace, f.eval host settings m = (.ok f, { m with trace }) := by
  obtain ⟨houtcome, hworld⟩ := Prod.ext_iff.mp (h.run (s := ⟨host, settings.maxDepth, m.env.bindings⟩) hint hfits)
  simp only [Run.result] at houtcome hworld
  rw [eval_eq_run, houtcome, hworld]
  exact ⟨_, rfl⟩

/-- Evaluating inert forms one after the other gives each of them back. -/
theorem exists_serves_of_inert {fs : List Form} (hint : host.interrupted m.world = false)
    (h : ∀ f ∈ fs, f.Inert ∧ m.env.depth + f.height ≤ settings.maxDepth) :
    ∃ trace, Serves (Form.eval host settings) m fs fs { m with trace } := by
  induction fs generalizing m with
  | nil => exact ⟨m.trace, .done m⟩
  | cons f fs ih =>
    obtain ⟨⟨hinert, hfits⟩, hrest⟩ := List.forall_mem_cons.mp h
    obtain ⟨trace, hf⟩ := hinert.eval hint hfits
    obtain ⟨trace', hfs⟩ := ih (m := { m with trace }) hint hrest
    exact ⟨trace', .call hf hfs⟩

/-- Replacing the inert values of a kept map by their values gives the same map, although its members and its index are made anew. -/
theorem IndexedMap.Made.mapValues_of_inert {n : IndexedMap} (hn : Made n) (hint : host.interrupted m.world = false)
    (h : ∀ v ∈ valuesOf n.members, v.Inert ∧ m.env.depth + v.height ≤ settings.maxDepth) :
    ∃ trace, n.mapValues (Form.eval host settings) m = (.ok n, { m with trace }) := by
  obtain ⟨delims, pairs, rfl⟩ := hn.exists_ofPairs
  rw [ofPairs, valuesOf_alternate] at h
  obtain ⟨trace, hserves⟩ := exists_serves_of_inert hint h
  have hvalues : Form.traverseValues (Form.eval host settings) pairs m = (.ok pairs, { m with trace }) := by
    rw [Form.traverseValues_eq_mapM, MapsOver.map_ok hserves.mapM, ← List.zip_of_prod rfl rfl]
  refine ⟨trace, ?_⟩
  rw [mapValues_ofPairs]
  exact MapsOver.map_ok hvalues (ofPairs delims)

/-! ## Only inert forms are -/

/-- Where nothing is bound and no function gives a value, only a form that stands for itself is made a value of its children. -/
theorem Form.standsForItself_of_combine {f v : Form} {w : σ} (hcall : ∀ b args w v, (host.call b args w).1 ≠ .ok v)
    (hv : (f.combine host [] f.children w).1 = .ok v) : f.StandsForItself := by
  rcases f with _ | _ | _ | _ | _ | ⟨_ | _, delims, _ | ⟨head, args⟩⟩ | _ | _
  case symbol => cases hv
  case seq.list.nil => rfl
  case seq.list.cons =>
    have happly : (host.apply head args w).1 = .ok v := hv
    rcases host.apply_cases head args w with ⟨e, he⟩ | ⟨b, -, -, hb⟩
    · rw [he] at happly
      cases happly
    · rw [hb] at happly
      exact (hcall b args w v happly).elim
  all_goals trivial

/-- Where nothing is bound and no function gives a value, only an inert form has a value, and the value is the form. -/
theorem Form.inert_of_run_eq_ok {s : Surroundings σ} (hbindings : s.bindings = [])
    (hcall : ∀ b args w v, (s.host.call b args w).1 ≠ .ok v) {f v : Form} {depth : Nat} {w : σ}
    (hv : (f.run s depth w).outcome = .ok v) : f.Inert ∧ f = v := by
  refine Form.rel_of_run_eq_ok (R := fun f v => f.Inert ∧ f = v) (fun f values w v h hcombine => ?_) hv
  obtain ⟨hinert, hvalues⟩ := (List.forall₂_and_left _ _).mp h
  obtain rfl : f.children = values := List.forall₂_eq_eq_eq ▸ hvalues
  rw [hbindings] at hcombine
  have hself : f.StandsForItself := Form.standsForItself_of_combine hcall hcombine
  rw [Form.combine_children hself] at hcombine
  exact ⟨Form.forall_parts_iff.mpr ⟨hself, fun k _ => k.standsForItself, hinert⟩, Except.ok.inj hcombine⟩

/-- Inert forms evaluate to themselves. On every machine that is not to stop, whatever is bound and whatever functions do, an inert
form that fits below the limit of depth has a value, the value is identical to the form, and only the trace of the machine changes.
Replacing the values of a kept map, if they are such forms, by their values gives an identical map: the members, replaced ones
included, the entries in their order with their key forms, and the delimiters are those it had. No other form is its own value
everywhere: where nothing is bound and no function gives a value, only the inert forms that fit have a value. -/
theorem inert_forms_self_evaluate (host : Host σ) (settings : Settings) (m : Machine σ)
    (hint : host.interrupted m.world = false) :
    (∀ f : Form, f.Inert → m.env.depth + f.height ≤ settings.maxDepth →
        ∃ trace, f.eval host settings m = (.ok f, { m with trace })) ∧
      (∀ n : IndexedMap, n.Made →
        (∀ v ∈ IndexedMap.valuesOf n.members, v.Inert ∧ m.env.depth + v.height ≤ settings.maxDepth) →
        ∃ trace, n.mapValues (Form.eval host settings) m = (.ok n, { m with trace })) ∧
      (m.env.bindings = [] → (∀ b args w v, (host.call b args w).1 ≠ .ok v) →
        ∀ f v : Form, (f.eval host settings m).1 = .ok v ↔
          v = f ∧ f.Inert ∧ m.env.depth + f.height ≤ settings.maxDepth) := by
  refine ⟨fun f hf => hf.eval hint, fun n hn => hn.mapValues_of_inert hint, fun hbindings hcall f v => ⟨fun hv => ?_, ?_⟩⟩
  · rw [eval_eq_run] at hv
    obtain ⟨hinert, rfl⟩ := Form.inert_of_run_eq_ok hbindings hcall hv
    exact ⟨rfl, hinert, Form.fits_of_run_eq_ok hv⟩
  · rintro ⟨rfl, hinert, hfits⟩
    obtain ⟨trace, heval⟩ := hinert.eval hint hfits
    rw [heval]

/-- Where nothing is bound, and at the last depth that has room for it, a vector with a map in which a key comes again is its own
value, tokens and all. One level deeper it has none. The map as it is kept is its own value, too, and binds the latest value to the
key form that came first. -/
theorem inert_forms_self_evaluate_rebuilt :
    let host : Host Unit := ⟨fun b _ w => (.error (.unboundSymbol b.name), w), fun _ => false⟩
    let a (offset : Nat) : Key := .keyword ⟨.shared, "a"⟩ (some ⟨":a", offset⟩)
    let one : Form := .int 1 (some ⟨"01", 9⟩)
    let pairs := [(a 2, .vector [.builtin ⟨"f", -1, ⟨.list, 0⟩⟩]), (.str "b" none, one), (a 12, .list [])]
    let delims : Delimiters := ⟨some ⟨"\x7b", 1⟩, some ⟨"\x7d", 17⟩⟩
    let f : Form := .vector [.map delims pairs]
    let m (depth : Nat) : Machine Unit := ⟨⟨[], depth⟩, (), #[]⟩
    f.Inert ∧ f.height = 4 ∧
      (f.eval host ⟨7, false⟩ (m 3)).1 = .ok f ∧ (∀ v, (f.eval host ⟨7, false⟩ (m 4)).1 ≠ .ok v) ∧
      ∃ n : IndexedMap, n.Made ∧ n.delims = delims ∧ n.entries = [((a 2).toForm, .list []), (.str "b" none, one)] ∧
        (n.mapValues (Form.eval host ⟨7, false⟩) (m 5)).1 = .ok n := by
  intro host a one pairs delims f m
  have hinert : f.Inert := by decide
  have hheight : f.height = 4 := by decide
  have hcall : ∀ b args w v, (host.call b args w).1 ≠ .ok v := nofun
  obtain ⟨hself, -, -⟩ := inert_forms_self_evaluate host ⟨7, false⟩ (m 3) rfl
  obtain ⟨-, -, honly⟩ := inert_forms_self_evaluate host ⟨7, false⟩ (m 4) rfl
  obtain ⟨-, hkept, -⟩ := inert_forms_self_evaluate host ⟨7, false⟩ (m 5) rfl
  refine ⟨hinert, hheight, ?_, ?_, IndexedMap.ofPairs delims pairs, made_ofPairs delims pairs, rfl, rfl, ?_⟩
  · obtain ⟨trace, heval⟩ := hself f hinert (by decide)
    rw [heval]
  · intro v hv
    obtain ⟨-, -, hfits⟩ := (honly rfl hcall f v).mp hv
    exact absurd hfits (by decide)
  · obtain ⟨trace, hmap⟩ := hkept _ (made_ofPairs delims pairs) (by decide)
    rw [hmap]

end TinyLisp

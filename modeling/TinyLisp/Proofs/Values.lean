import TinyLisp.Proofs.Prelude

/-!
# Values in arithmetic surroundings

Among arithmetic bindings evaluation leaves nothing behind but a trace, and does not depend on the trace. So a form has a value on
a machine or it has none, whatever is evaluated before it (`Form.HasValue`, `Form.valueAt`), and the values of members and of keys
are those that each form has by itself (`evalMembers_eq_ok_iff`, `evalValues_eq_ok_iff`).
-/

namespace TinyLisp

variable {σ α β : Type}

/-! ## Results of actions -/

theorem Machine.Agrees.symm {m n : Machine σ} (h : m.Agrees n) : n.Agrees m := ⟨h.1.symm, h.2.symm⟩

theorem Machine.Agrees.trans {m n o : Machine σ} (h : m.Agrees n) (h' : n.Agrees o) : m.Agrees o :=
  ⟨h.1.trans h'.1, h.2.trans h'.2⟩

/-- Recording an event leads to a machine that agrees in all but the trace. -/
theorem Machine.agrees_record (m : Machine σ) (settings : Settings) (e : Event) : (m.record settings e).Agrees m :=
  ⟨m.env_record settings e, m.world_record settings e⟩

/-- Two actions one after the other give a value exactly when the first gives one and the second goes on to the value. -/
theorem Action.bind_eq_ok_iff {act : Action σ α} {next : α → Action σ β} {m : Machine σ} {b : β} :
    ((act >>= next) m).1 = .ok b ↔ ∃ a, (act m).1 = .ok a ∧ (next a (act m).2).1 = .ok b := by
  rcases h : act m with ⟨e | a, m'⟩
  · rw [Action.bind_error h]
    simp
  · rw [Action.bind_ok h]
    simp

/-- A form has a value exactly when evaluation is not to stop, one can go deeper, and the work of evaluating the form gives the
value there. -/
theorem eval_eq_ok_iff {host : Host σ} {settings : Settings} {f v : Form} {m : Machine σ} :
    (f.eval host settings m).1 = .ok v ↔
      host.interrupted m.world = false ∧ ∃ env, m.env.enterCall settings.maxDepth = .ok env ∧
        (f.work host settings (({ m with env } : Machine σ).record settings (.enter m.env.depth f))).1 = .ok v := by
  rw [Form.eval_eq_within, Action.within]
  cases hi : host.interrupted m.world with
  | true => simp
  | false =>
    cases he : m.env.enterCall settings.maxDepth with
    | error e => simp
    | ok env =>
      rcases hw : f.work host settings (({ m with env } : Machine σ).record settings (.enter m.env.depth f)) with
        ⟨e | u, m'⟩ <;> simp [hw]

/-! ## Values -/

section

variable (host : Host σ) (settings : Settings) (m : Machine σ)

/-- The value of a form on a machine, or the form itself if it has none. -/
def Form.valueAt (f : Form) : Form := (f.eval host settings m).1.toOption.getD f

/-- Whether a form has a value on a machine. -/
def Form.HasValue (f : Form) : Prop := (f.eval host settings m).1 = .ok (f.valueAt host settings m)

end

section

variable {host : Host σ} {settings : Settings} {m n : Machine σ}

/-- What a form is evaluated to is its value. -/
theorem Form.eval_eq_ok_iff_hasValue {f v : Form} :
    (f.eval host settings m).1 = .ok v ↔ f.HasValue host settings m ∧ f.valueAt host settings m = v := by
  unfold HasValue valueAt
  cases (f.eval host settings m).1 with
  | error e => simp
  | ok u => simp [Except.toOption]

/-- The trace does not matter for the value of a form. -/
theorem Form.eval_of_agrees (h : n.Agrees m) (f : Form) : (f.eval host settings n).1 = (f.eval host settings m).1 :=
  (eval_alike host rfl f h).1

end

/-! ## Arithmetic surroundings -/

/-- Whether all that is bound on a machine is arithmetic. -/
def Machine.Arithmetic (m : Machine σ) : Prop := ∀ b ∈ m.env.bindings, b.2.Arithmetic

/-- Machines with the same bindings are arithmetic alike. -/
theorem Machine.Arithmetic.of_agrees {m n : Machine σ} (h : m.Arithmetic) (hn : n.Agrees m) : n.Arithmetic := by
  unfold Machine.Arithmetic
  rw [hn.1]
  exact h

section

variable {flag : Nat} {settings : Settings} {m n : Machine World}

/-- The evaluation of an arithmetic form leaves nothing behind but a trace, and gives an arithmetic form, if any. -/
theorem Form.Arithmetic.eval {f : Form} (hf : f.Arithmetic) (hm : m.Arithmetic) :
    (f.eval (World.host flag) settings m).2.Agrees m ∧
      ∀ v, (f.eval (World.host flag) settings m).1 = .ok v → v.Arithmetic := by
  obtain ⟨henv, ⟨-, hworld⟩, hout⟩ := (arithmetic_invariant flag settings.maxDepth m.world).eval hf m ⟨hm, rfl⟩
  refine ⟨⟨henv, hworld⟩, ?_⟩
  intro v hv
  rw [hv] at hout
  exact hout

/-- Arithmetic members have values exactly when each of them has one by itself, and these are the values. -/
theorem evalMembers_eq_ok_iff {fs vs : List Form} (hm : m.Arithmetic) (hfs : ∀ f ∈ fs, f.Arithmetic) (hn : n.Agrees m) :
    (evalMembers (World.host flag) settings fs n).1 = .ok vs ↔
      (∀ f ∈ fs, f.HasValue (World.host flag) settings m) ∧ vs = fs.map (Form.valueAt (World.host flag) settings m) := by
  induction fs generalizing vs n with
  | nil =>
    constructor
    · intro h
      cases h
      exact ⟨nofun, rfl⟩
    · rintro ⟨-, rfl⟩
      rfl
  | cons f fs ih =>
    obtain ⟨hf, hfs⟩ := List.forall_mem_cons.mp hfs
    -- What the first member leaves behind does not matter for the others.
    have hnext : (f.eval (World.host flag) settings n).2.Agrees m := (hf.eval (hm.of_agrees hn)).1.trans hn
    simp only [evalMembers, Action.bind_eq_ok_iff, ih hfs hnext, Form.eval_of_agrees hn, Form.eval_eq_ok_iff_hasValue,
      List.forall_mem_cons, List.map_cons]
    constructor
    · rintro ⟨_, ⟨hvalue, rfl⟩, _, ⟨hvalues, rfl⟩, heq⟩
      exact ⟨⟨hvalue, hvalues⟩, (Except.ok.inj heq).symm⟩
    · rintro ⟨⟨hvalue, hvalues⟩, rfl⟩
      exact ⟨_, ⟨hvalue, rfl⟩, _, ⟨hvalues, rfl⟩, rfl⟩

/-- The values of a map of arithmetic values are those that each of them has by itself, under the same keys. -/
theorem evalValues_eq_ok_iff {ps es : List (Key × Form)} (hm : m.Arithmetic) (hps : ∀ p ∈ ps, p.2.Arithmetic)
    (hn : n.Agrees m) :
    (evalValues (World.host flag) settings ps n).1 = .ok es ↔
      (∀ p ∈ ps, p.2.HasValue (World.host flag) settings m) ∧
        es = ps.map (Prod.map id (Form.valueAt (World.host flag) settings m)) := by
  have hzip : (ps.map Prod.fst).zip ((ps.map Prod.snd).map (Form.valueAt (World.host flag) settings m)) =
      ps.map (Prod.map id (Form.valueAt (World.host flag) settings m)) := by
    rw [List.map_map, List.zip_map']
    rfl
  rw [evalValues_eq_map, map_eq_pure_bind, Action.bind_eq_ok_iff]
  simp only [evalMembers_eq_ok_iff hm (List.forall_mem_map.mpr hps) hn, List.forall_mem_map]
  constructor
  · rintro ⟨_, ⟨hvalues, rfl⟩, heq⟩
    exact ⟨hvalues, (Except.ok.inj heq).symm.trans hzip⟩
  · rintro ⟨hvalues, rfl⟩
    exact ⟨_, ⟨hvalues, rfl⟩, congrArg Except.ok hzip⟩

end

end TinyLisp

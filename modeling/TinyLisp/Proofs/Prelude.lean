import TinyLisp.Proofs.RoundTrip
import TinyLisp.Proofs.Run
import TinyLisp.Session

/-!
# Sessions that know arithmetic only

A form is arithmetic when all functions that it holds are operations of arithmetic. Forms that were read hold no functions at
all, the prelude binds nothing else, and values of arithmetic forms are arithmetic again. Operations of arithmetic leave the
world alone, so a session whose bindings are arithmetic is the same after a line as before it (`evalLine_session`), and so is
the world (`evalLine_world`).
-/

namespace TinyLisp

/-- Whether all functions that a form holds are operations of arithmetic. -/
def Form.Arithmetic (f : Form) : Prop := ∀ b, .builtin b ∈ f.parts → ∃ op, b.object.routine = .arithmetic op

/-- A sequence is arithmetic when its members are. -/
theorem arithmetic_seq {kind : SeqKind} {delims : Delimiters} {members : List Form} :
    (Form.seq kind delims members).Arithmetic ↔ ∀ m ∈ members, m.Arithmetic := by
  simp only [Form.Arithmetic, Form.parts, List.mem_cons, reduceCtorEq, false_or, mem_partsOfMembers]
  constructor
  · exact fun h m hm b hb => h b ⟨m, hm, hb⟩
  · rintro h b ⟨m, hm, hb⟩
    exact h m hm b hb

/-- A map is arithmetic when its values are. -/
theorem arithmetic_map {delims : Delimiters} {pairs : List (Key × Form)} :
    (Form.map delims pairs).Arithmetic ↔ ∀ p ∈ pairs, p.2.Arithmetic := by
  simp only [Form.Arithmetic, Form.parts, List.mem_cons, mem_partsOfPairs, eq_toForm_iff, Form.asKey?, reduceCtorEq, false_or]
  constructor
  · exact fun h p hp b hb => h b ⟨p, hp, hb⟩
  · rintro h b ⟨p, hp, hb⟩
    exact h p hp b hb

/-- A readable form holds no functions. -/
theorem Form.Readable.arithmetic {f : Form} (h : f.Readable) : f.Arithmetic := fun _ hb => (h _ hb).elim

/-- What an operation gives is an integer. -/
theorem Operator.eq_ofWord_of_apply {op : Operator} {args : List Form} {v : Form} (h : op.apply args = .ok v) :
    ∃ w, v = .ofWord w := by
  unfold Operator.apply at h
  split at h
  · next a b =>
    cases ha : a.operand with
    | error e => simp [ha, bind, Except.bind] at h
    | ok x =>
      cases hb : b.operand with
      | error e => simp [ha, hb, bind, Except.bind] at h
      | ok y =>
        cases hc : op.compute x y with
        | error e => simp [ha, hb, hc, bind, Except.bind] at h
        | ok w =>
          simp only [ha, hb, hc, bind, Except.bind, pure, Except.pure, Except.ok.injEq] at h
          exact ⟨w, h.symm⟩
  · cases h

/-- A function of arithmetic applies its operation and leaves the world alone. -/
theorem Builtin.run_arithmetic {b : Builtin} {op : Operator} (h : b.object.routine = .arithmetic op) (args : List Form)
    (w : World) : b.run args w = (op.apply args, w) := by
  unfold Builtin.run
  rw [h]

/-- Applying an arithmetic form to anything leaves the world alone and gives an arithmetic form, if any. -/
theorem apply_arithmetic {f : Form} (hf : f.Arithmetic) (flag : Nat) (args : List Form) (w : World) :
    ((World.host flag).apply f args w).2 = w ∧
      Settles Form.Arithmetic (fun _ => True) ((World.host flag).apply f args w).1 := by
  rcases (World.host flag).apply_cases f args w with ⟨e, happly⟩ | ⟨b, rfl, -, happly⟩
  · rw [happly]
    exact ⟨rfl, trivial⟩
  · obtain ⟨op, hop⟩ := hf b (by simp [Form.parts])
    have hrun : (World.host flag).call b args w = (op.apply args, w) := Builtin.run_arithmetic hop args w
    rw [happly, hrun]
    refine ⟨rfl, ?_⟩
    cases ha : op.apply args with
    | error e => trivial
    | ok v =>
      obtain ⟨x, rfl⟩ := Operator.eq_ofWord_of_apply ha
      intro c hc
      simp [Form.ofWord, Form.parts] at hc

/-- Evaluation keeps arithmetic forms arithmetic and the world as it is. -/
theorem arithmetic_invariant (flag limit : Nat) (w : World) :
    EvalInvariant (World.host flag) limit (fun bindings world => (∀ b ∈ bindings, b.2.Arithmetic) ∧ world = w)
      Form.Arithmetic Form.Arithmetic fun _ => True where
  interrupted _ _ _ _ := trivial
  overflow _ := trivial
  symbol name _ env _ _ hs := Environment.settles_lookup hs.1 name
  self _ hf _ _ := hf
  member _ _ _ hf := arithmetic_seq.mp hf
  mapped _ _ hf := arithmetic_map.mp hf
  empty _ := id
  vector _ _ _ _ _ hvs := arithmetic_seq.mpr hvs
  map _ _ _ _ _ hes := arithmetic_map.mpr hes
  apply bindings world f args hs hf _ := by
    obtain ⟨hw, hout⟩ := apply_arithmetic hf flag args world
    exact ⟨⟨hs.1, hw.trans hs.2⟩, hout⟩

namespace Session

/-- Whether all that a session has bound is arithmetic. -/
def Arithmetic (s : Session) : Prop := ∀ b ∈ s.env.bindings, b.2.Arithmetic

/-- The prelude binds operations of arithmetic, each to the sign that is its name. -/
theorem exists_of_mem_prelude (serial flag : Nat) (settings : Settings) :
    ∀ b ∈ (withPrelude serial flag settings).env.bindings,
      ∃ name ∈ ["+", "-", "*", "/"], ∃ op, b.2 = .builtin (Environment.operatorBuiltin serial name op) := by
  intro b hb
  simp only [withPrelude, Environment.loadPrelude, Environment.defineBuiltin, Environment.define, List.mem_cons,
    List.not_mem_nil, or_false] at hb
  rcases hb with rfl | rfl | rfl | rfl <;> exact ⟨_, by decide, _, rfl⟩

/-- A session with the prelude is arithmetic. -/
theorem arithmetic_withPrelude (serial flag : Nat) (settings : Settings) : (withPrelude serial flag settings).Arithmetic := by
  intro b hb c hc
  obtain ⟨name, -, op, heq⟩ := exists_of_mem_prelude serial flag settings b hb
  rw [heq] at hc
  cases List.mem_singleton.mp hc
  exact ⟨op, rfl⟩

/-- A line leaves an arithmetic session and the world as they are. -/
theorem Arithmetic.evalLine {s : Session} (h : s.Arithmetic) (w : World) (line : String) :
    (s.evalLine w line).session = s ∧ (s.evalLine w line).world = w := by
  unfold Session.evalLine
  cases hr : readText defaultNesting line with
  | error e => exact ⟨rfl, rfl⟩
  | ok f =>
    have hf : f.Arithmetic := (readable_of_readText hr).arithmetic
    obtain ⟨henv, ⟨_, hw⟩, _⟩ := (arithmetic_invariant s.flag s.settings.maxDepth w).eval hf ⟨s.env, w, #[]⟩ ⟨h, rfl⟩
    exact ⟨congrArg (fun env => { s with env }) henv, hw⟩

/-- A line that is not read comes to the report of the reader. -/
theorem result_evalLine_of_error {line : String} {e : ReadError} (h : readText defaultNesting line = .error e) (s : Session)
    (w : World) : (s.evalLine w line).result = .error (.read e) := by
  unfold Session.evalLine
  rw [h]
  rfl

/-- A line that is read comes to what its form is evaluated to. -/
theorem result_evalLine_of_ok {line : String} {f : Form} (h : readText defaultNesting line = .ok f) (s : Session) (w : World) :
    (s.evalLine w line).result =
      ((f.eval s.host s.settings ⟨s.env, w, #[]⟩).1.mapError Error.eval).map (Form.print .readable) := by
  unfold Session.evalLine
  rw [h]
  rfl

/-- A line is read to a form, which is printed, or comes to the report of the reader. -/
theorem echoLine_cases (line : String) :
    (∃ e, readText defaultNesting line = .error e ∧ echoLine line = .error (.read e)) ∨
      ∃ f, readText defaultNesting line = .ok f ∧ echoLine line = .ok (f.print .readable) := by
  unfold echoLine
  cases readText defaultNesting line with
  | error e => exact .inl ⟨e, rfl, rfl⟩
  | ok f => exact .inr ⟨f, rfl, rfl⟩

/-- What comes of a line does not depend on whether a trace is written. -/
theorem result_evalLine {s t : Session} (he : s.env = t.env) (hf : s.flag = t.flag)
    (hm : s.settings.maxDepth = t.settings.maxDepth) (w : World) (line : String) :
    (s.evalLine w line).result = (t.evalLine w line).result := by
  cases hread : readText defaultNesting line with
  | error e => rw [result_evalLine_of_error hread, result_evalLine_of_error hread]
  | ok f =>
    have halike : (f.eval s.host s.settings ⟨s.env, w, #[]⟩).1 = (f.eval t.host t.settings ⟨t.env, w, #[]⟩).1 := by
      rw [Session.host, Session.host, he, hf]
      exact (eval_alike (World.host t.flag) hm f ⟨rfl, rfl⟩).1
    rw [result_evalLine_of_ok hread, result_evalLine_of_ok hread, halike]

end Session

end TinyLisp

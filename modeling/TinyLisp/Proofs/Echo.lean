import Mathlib
import TinyLisp.Proofs.Values

/-!
# Echoed lines

A line that is read and printed is printed in its normal form: without comments and needless blanks, and in maps without the
values that were replaced. The echo has fewer values to evaluate, yet its value has the same normal form (`echoed`): operations of
arithmetic see normal forms only, replaced values do not show, and evaluation leaves nothing behind. So an echoed line has the
same result as the line itself (`echoed_line_same_result`).
-/

namespace TinyLisp

/-! ## Lists in step -/

/-- What holds of partners in two lists holds of the lists. The partners of an element are those with the same image. -/
theorem forall_of_map_eq {α β γ δ : Type} {a : α → γ} {b : β → γ} {c : α → δ} {d : β → δ} {P : β → Prop} {xs : List α}
    {ys : List β} (h : ys.map b = xs.map a) (hp : ∀ x ∈ xs, ∀ y ∈ ys, b y = a x → P y ∧ d y = c x) :
    (∀ y ∈ ys, P y) ∧ ys.map d = xs.map c := by
  induction xs generalizing ys with
  | nil =>
    obtain rfl : ys = [] := List.map_eq_nil_iff.mp h
    simp
  | cons x xs ih =>
    obtain ⟨y, ys, rfl, hy, hys⟩ := List.map_eq_cons_iff.mp h
    obtain ⟨hP, hd⟩ := hp x List.mem_cons_self y List.mem_cons_self hy
    obtain ⟨hPs, hds⟩ := ih hys fun x' hx' y' hy' => hp x' (List.mem_cons_of_mem _ hx') y' (List.mem_cons_of_mem _ hy')
    exact ⟨List.forall_mem_cons.mpr ⟨hP, hPs⟩, by rw [List.map_cons, List.map_cons, hd, hds]⟩

/-! ## Functions see normal forms only -/

/-- Tokens and replaced values do not count for the operands of arithmetic. -/
theorem Form.operand_normal (f : Form) : f.normal.operand = f.operand := by
  rcases f with _ | _ | _ | _ | _ | ⟨_ | _, _, _⟩ | _ | _ <;> rfl

/-- Operations of arithmetic give the same on arguments as on their normal forms. -/
theorem Operator.apply_normal (op : Operator) (args : List Form) : op.apply (args.map Form.normal) = op.apply args := by
  rcases args with _ | ⟨a, _ | ⟨b, _ | ⟨c, rest⟩⟩⟩
  · rfl
  · rfl
  · simp only [Operator.apply, List.map_cons, List.map_nil, Form.operand_normal]
  · simp only [Operator.apply, List.map_cons, List.length_cons, List.length_map]

/-- A form with the normal form of a function is that function. -/
theorem eq_builtin_of_normal_eq {f : Form} {b : Builtin} (h : f.normal = .builtin b) : f = .builtin b := by
  cases f <;> cases h
  rfl

variable {flag : Nat} {settings : Settings}

/-- Values with the same normal forms are applied to the same result. -/
theorem applyMembers_of_normal_eq {vs us : List Form} (h : us.map Form.normal = vs.map Form.normal)
    (hvs : ∀ v ∈ vs, v.Arithmetic) {delims : Delimiters} (delims' : Delimiters) {n : Machine World} (n' : Machine World)
    {v : Form} (hv : (applyMembers (World.host flag) delims vs n).1 = .ok v) :
    ∃ u, (applyMembers (World.host flag) delims' us n').1 = .ok u ∧ u.normal = v.normal := by
  cases vs with
  | nil =>
    obtain rfl : us = [] := List.map_eq_nil_iff.mp h
    cases hv
    exact ⟨_, rfl, rfl⟩
  | cons head args =>
    obtain ⟨head', args', rfl, hhead, hargs⟩ := List.map_eq_cons_iff.mp h
    have happly : ((World.host flag).apply head args n.world).1 = .ok v := hv
    rcases (World.host flag).apply_cases head args n.world with ⟨e, he⟩ | ⟨b, rfl, harity, hcall⟩
    · rw [he] at happly
      cases happly
    · obtain rfl := eq_builtin_of_normal_eq hhead
      obtain ⟨op, hop⟩ := hvs _ List.mem_cons_self b (by simp [Form.parts])
      have hlen : args'.length = args.length := by simpa using congrArg List.length hargs
      have hresult : op.apply args' = op.apply args := by
        rw [← op.apply_normal args', hargs, op.apply_normal args]
      have hrun : ∀ as w, (World.host flag).call b as w = (op.apply as, w) := Builtin.run_arithmetic hop
      rw [hcall, hrun] at happly
      refine ⟨v, ?_, rfl⟩
      simp only [applyMembers, Action.apply, Host.apply, hlen, harity, hrun, hresult]
      exact happly

/-! ## Echoes -/

/-- Whether every echo of a form, which is its normal form up to tokens, has a value with the same normal form wherever the form
has a value. -/
def Form.Echoed (flag : Nat) (settings : Settings) (f : Form) : Prop :=
  f.Arithmetic → ∀ (g v : Form) (m : Machine World), g.bare = f.normal → g.Arithmetic → m.Arithmetic →
    (f.eval (World.host flag) settings m).1 = .ok v →
      ∃ u, (g.eval (World.host flag) settings m).1 = .ok u ∧ u.normal = v.normal

/-- Where a form has a value, its echo has one, and both have one normal form. -/
theorem Form.Echoed.valueAt {f g : Form} (h : f.Echoed flag settings) (hb : g.bare = f.normal) (hf : f.Arithmetic)
    (hg : g.Arithmetic) {m : Machine World} (hm : m.Arithmetic) (hv : f.HasValue (World.host flag) settings m) :
    g.HasValue (World.host flag) settings m ∧
      (g.valueAt (World.host flag) settings m).normal = (f.valueAt (World.host flag) settings m).normal := by
  obtain ⟨u, hu, hn⟩ := h hf g _ m hb hg hm hv
  obtain ⟨hvalue, rfl⟩ := Form.eval_eq_ok_iff_hasValue.mp hu
  exact ⟨hvalue, hn⟩

/-- It is enough that the work of evaluating an echo gives what the work of evaluating the form gives, on machines that agree. -/
theorem echoed_of_work {f : Form}
    (h : f.Arithmetic → ∀ (g v : Form) (m n n' : Machine World), g.bare = f.normal → g.Arithmetic → m.Arithmetic →
      n.Agrees m → n'.Agrees m → (f.work (World.host flag) settings n).1 = .ok v →
        ∃ u, (g.work (World.host flag) settings n').1 = .ok u ∧ u.normal = v.normal) :
    f.Echoed flag settings := by
  intro hf g v m hb hg hm hv
  obtain ⟨hint, env, henter, hwork⟩ := eval_eq_ok_iff.mp hv
  have hdeep : ({ m with env } : Machine World).Arithmetic := by
    unfold Machine.Arithmetic
    rw [Environment.bindings_of_enterCall henter]
    exact hm
  obtain ⟨u, hu, hn⟩ := h hf g v { m with env } _ _ hb hg hdeep (Machine.agrees_record ..)
    (Machine.agrees_record _ settings (.enter m.env.depth g)) hwork
  exact ⟨u, eval_eq_ok_iff.mpr ⟨hint, env, henter, hu⟩, hn⟩

/-- The echoes of members have values with the same normal forms. -/
theorem echoed_members {fs gs : List Form} (ih : ∀ f ∈ fs, f.Echoed flag settings) (hb : gs.map Form.bare = fs.map Form.normal)
    (hfs : ∀ f ∈ fs, f.Arithmetic) (hgs : ∀ g ∈ gs, g.Arithmetic) {m : Machine World} (hm : m.Arithmetic)
    (hv : ∀ f ∈ fs, f.HasValue (World.host flag) settings m) :
    (∀ g ∈ gs, g.HasValue (World.host flag) settings m) ∧
      (gs.map (Form.valueAt (World.host flag) settings m)).map Form.normal =
        (fs.map (Form.valueAt (World.host flag) settings m)).map Form.normal := by
  rw [List.map_map, List.map_map]
  exact forall_of_map_eq hb fun f hf g hg heq => (ih f hf).valueAt heq (hfs f hf) (hgs g hg) hm (hv f hf)

/-- The echoes of the entries of a map have values with the same normal forms, under the same keys. -/
theorem echoed_pairs {es ps : List (Key × Form)} (ih : ∀ e ∈ es, e.2.Echoed flag settings)
    (hb : ps.map (Prod.map Key.bare Form.bare) = es.map (Prod.map Key.bare Form.normal)) (hes : ∀ e ∈ es, e.2.Arithmetic)
    (hps : ∀ p ∈ ps, p.2.Arithmetic) {m : Machine World} (hm : m.Arithmetic)
    (hv : ∀ e ∈ es, e.2.HasValue (World.host flag) settings m) :
    (∀ p ∈ ps, p.2.HasValue (World.host flag) settings m) ∧
      ps.map (Prod.map Key.bare fun f => (f.valueAt (World.host flag) settings m).normal) =
        es.map (Prod.map Key.bare fun f => (f.valueAt (World.host flag) settings m).normal) := by
  refine forall_of_map_eq hb fun e he p hp heq => ?_
  obtain ⟨hkey, hvalue⟩ := Prod.mk.inj heq
  obtain ⟨hpv, hn⟩ := (ih e he).valueAt hvalue (hes e he) (hps p hp) hm (hv e he)
  exact ⟨hpv, Prod.ext hkey hn⟩

/-- Every form is echoed. -/
theorem echoed (f : Form) : f.Echoed flag settings := by
  induction f with
  | symbol name token =>
    refine echoed_of_work fun _ g v m n n' hb _ _ hn hn' hv => ⟨v, ?_, rfl⟩
    cases g <;> cases hb
    have henv : n'.env = n.env := (hn'.trans hn.symm).1
    exact (congrArg (Environment.lookup · name) henv).trans hv
  | int | str | keyword | bool | builtin =>
    refine echoed_of_work fun _ g v m n n' hb _ _ _ _ hv => ?_
    cases g <;> cases hb
    cases hv
    exact ⟨_, rfl, rfl⟩
  | seq kind delims members ih =>
    refine echoed_of_work fun hf g v m n n' hb hg hm hn hn' hv => ?_
    cases g with
    | seq kind' delims' members' =>
      obtain ⟨rfl, hms⟩ : kind' = kind ∧ members'.map Form.bare = members.map Form.normal := by
        simpa [Form.bare, Form.normal, bareMembers_eq_map, normalMembers_eq_map] using hb
      have hfs := arithmetic_seq.mp hf
      have hgs := arithmetic_seq.mp hg
      cases kind' with
      | list =>
        obtain ⟨vs, hvs, happly⟩ := Action.bind_eq_ok_iff.mp hv
        obtain ⟨hvalues, rfl⟩ := (evalMembers_eq_ok_iff hm hfs hn).mp hvs
        obtain ⟨hechoes, hnormal⟩ := echoed_members ih hms hfs hgs hm hvalues
        have harith : ∀ w ∈ members.map (Form.valueAt (World.host flag) settings m), w.Arithmetic :=
          List.forall_mem_map.mpr fun f hf => ((hfs f hf).eval hm).2 _ (hvalues f hf)
        obtain ⟨u, hu, hun⟩ := applyMembers_of_normal_eq hnormal harith delims' _ happly
        exact ⟨u, Action.bind_eq_ok_iff.mpr ⟨_, (evalMembers_eq_ok_iff hm hgs hn').mpr ⟨hechoes, rfl⟩, hu⟩, hun⟩
      | vector =>
        obtain ⟨vs, hvs, heq⟩ := Action.bind_eq_ok_iff.mp hv
        obtain ⟨hvalues, rfl⟩ := (evalMembers_eq_ok_iff hm hfs hn).mp hvs
        obtain ⟨hechoes, hnormal⟩ := echoed_members ih hms hfs hgs hm hvalues
        cases heq
        refine ⟨_, Action.bind_eq_ok_iff.mpr ⟨_, (evalMembers_eq_ok_iff hm hgs hn').mpr ⟨hechoes, rfl⟩, rfl⟩, ?_⟩
        rw [Form.normal, Form.normal, normalMembers_eq_map, normalMembers_eq_map, hnormal]
    | _ => cases hb
  | map delims pairs ih =>
    refine echoed_of_work fun hf g v m n n' hb hg hm hn hn' hv => ?_
    cases g with
    | map delims' pairs' =>
      have hps : pairs'.map (Prod.map Key.bare Form.bare) =
          (Entries.entries pairs).map (Prod.map Key.bare Form.normal) := by
        rw [Form.bare, normal_map, barePairs_eq_map] at hb
        exact (Form.map.inj hb).2
      have hfs := arithmetic_map.mp hf
      have hgs := arithmetic_map.mp hg
      obtain ⟨es, hes, heq⟩ := Action.bind_eq_ok_iff.mp hv
      obtain ⟨hvalues, rfl⟩ := (evalValues_eq_ok_iff hm hfs hn).mp hes
      cases heq
      -- Only the entries are echoed, and replaced values are among the values that the form has.
      obtain ⟨hechoes, hnormal⟩ := echoed_pairs (Entries.forall_values_entries ih) hps
        (Entries.forall_values_entries hfs) hgs hm (Entries.forall_values_entries hvalues)
      refine ⟨_, Action.bind_eq_ok_iff.mpr ⟨_, (evalValues_eq_ok_iff hm hgs hn').mpr ⟨hechoes, rfl⟩, rfl⟩, ?_⟩
      have hcomp : ∀ qs : List (Key × Form),
          (qs.map (Prod.map id (Form.valueAt (World.host flag) settings m))).map (Prod.map Key.bare Form.normal) =
            qs.map (Prod.map Key.bare fun f => (f.valueAt (World.host flag) settings m).normal) := by
        intro qs
        rw [List.map_map]
        rfl
      rw [Form.normal, Form.normal, normalPairs_eq_map, normalPairs_eq_map, hcomp, hcomp, hnormal,
        Entries.entries_map Key.index_bare, Entries.entries_entries, Entries.entries_map Key.index_bare]
    | _ => cases hb

/-! ## Lines -/

namespace Session

/-- A line has a result exactly when it is read as a form that has a value, and the result is the value printed. -/
theorem result_evalLine_eq_ok_iff {s : Session} {w : World} {line out : String} :
    (s.evalLine w line).result = .ok out ↔
      ∃ f v, readText defaultNesting line = .ok f ∧ (f.eval s.host s.settings ⟨s.env, w, #[]⟩).1 = .ok v ∧
        out = v.print .readable := by
  cases hr : readText defaultNesting line with
  | error e => simp [result_evalLine_of_error hr]
  | ok f =>
    rw [result_evalLine_of_ok hr]
    cases hv : (f.eval s.host s.settings ⟨s.env, w, #[]⟩).1 with
    | error e => simp [hv, Except.mapError, Except.map]
    | ok v => simp [hv, Except.mapError, Except.map, eq_comm]

/-- In an arithmetic session an echoed line has the result of the line. -/
theorem Arithmetic.result_echoLine {s : Session} (hs : s.Arithmetic) {w : World} {line out : String}
    (h : (s.evalLine w line).result = .ok out) :
    ∃ p, echoLine line = .ok p ∧ (s.evalLine w p).result = .ok out := by
  obtain ⟨f, v, hread, hv, rfl⟩ := result_evalLine_eq_ok_iff.mp h
  have hf : f.Readable := readable_of_readText hread
  have hnesting : f.normal.nesting ≤ defaultNesting :=
    Nat.le_trans (nesting_normal_le f) (readTokens_eq_ok_iff.mp hread).2
  obtain ⟨g, hg, hb⟩ := readText_print hf.normal hnesting
  have hm : Machine.Arithmetic (⟨s.env, w, #[]⟩ : Machine World) := hs
  obtain ⟨u, hu, hn⟩ := echoed f hf.arithmetic g v ⟨s.env, w, #[]⟩ hb (readable_of_readText hg).arithmetic hm hv
  refine ⟨f.print .readable, ?_, result_evalLine_eq_ok_iff.mpr ⟨g, u, hg, hu, (print_eq_of_normal_eq hn .readable).symm⟩⟩
  rw [echoLine, hread]
  rfl

end Session

/-- Where a line has a result in a session with the prelude, it has an echo, and the echo has the same result: in that session,
and in the session and the world that the line leaves behind. -/
theorem echoed_line_same_result (serial flag : Nat) (settings : Settings) (w : World) (line out : String)
    (h : ((Session.withPrelude serial flag settings).evalLine w line).result = .ok out) :
    ∃ p, Session.echoLine line = .ok p ∧
      ((Session.withPrelude serial flag settings).evalLine w p).result = .ok out ∧
      (((Session.withPrelude serial flag settings).evalLine w line).session.evalLine
        ((Session.withPrelude serial flag settings).evalLine w line).world p).result = .ok out := by
  have hs : (Session.withPrelude serial flag settings).Arithmetic := Session.arithmetic_withPrelude serial flag settings
  obtain ⟨p, hp, hout⟩ := hs.result_echoLine h
  obtain ⟨hsession, hworld⟩ := hs.evalLine w line
  refine ⟨p, hp, hout, ?_⟩
  rw [hsession, hworld]
  exact hout

/-- The echo of a map with a key that comes twice, an integer with zeros in front and a comment has the result of the map. -/
theorem echoed_map_same_result :
    ∃ p, Session.echoLine "\x7b:a (* 6 7) :a [(+ 1 007)]\x7d ; twice" = .ok p ∧
      (Session.standard.evalLine {} p).result = .ok "\x7b:a [8]\x7d" := by
  have h : (Session.standard.evalLine {} "\x7b:a (* 6 7) :a [(+ 1 007)]\x7d ; twice").result = .ok "\x7b:a [8]\x7d" := by
    cbv
  obtain ⟨p, hp, hout, -⟩ := echoed_line_same_result 0 0 {} {} _ _ h
  exact ⟨p, hp, hout⟩

end TinyLisp

import Mathlib
import TinyLisp.Proofs.Causes
import TinyLisp.Proofs.Histories
import TinyLisp.Proofs.Pieces
import TinyLisp.Proofs.Results

/-!
# Tokens stay truthful

An atom is truthful when it is what the text of its token is read as, and a collection when the delimiters that are recorded in it
are those of its shape. The reader makes truthful forms. Evaluation puts values in the place of children and keeps the rest of the
form, and what functions compute has no token; so if operations of arithmetic are the only functions at hand, all forms and values
that a session comes to handle are truthful, in all their parts (`Session.Gathers.genuine`).
-/

namespace TinyLisp

/-! ## Truthful forms -/

/-- Whether a token is what its own text is cut into, apart from its place. -/
def Token.IsLexeme (t : Token) : Prop := tokenize t.text = [t.unplaced]

/-- Whether the delimiters that are recorded are those of a shape. -/
def Delimiters.AreOf (d : Delimiters) (shape : Shape) : Prop :=
  (∀ t ∈ d.opening, t.chars = [shape.opening]) ∧ ∀ t ∈ d.closing, t.chars = [shape.closing]

/-- Whether a form, apart from what it holds, is truthful: an atom is the same as what the text of its token is read as, if it has
a token, and the delimiters of a collection are those of its shape. -/
def Form.Truthful : Form → Prop
  | .seq kind delims _ => delims.AreOf (.seq kind)
  | .map delims _ => delims.AreOf .map
  | f => ∀ t ∈ f.token?, ∀ limit, ∃ g, readText limit t.text = .ok g ∧ (g == f) = true

/-- Whether a form, apart from what it holds, is one that reading or arithmetic makes: it is truthful, and it is what its own text
is read as or a binary operation of arithmetic. -/
structure Form.Genuine (f : Form) : Prop where
  truthful : f.Truthful
  readsBack : f.ReadsBack ∨ ∃ b, f = .builtin b ∧ b.IsBinary

/-- An atom is truthful. -/
theorem Atom.truthful {t : Token} {f : Form} (h : Atom t f) (ht : t.IsLexeme) (hc : t.isComment = false) : f.Truthful := by
  have hread := h.readText ht hc
  have hsame : (f.unplaced == f) = true := same_of_normal_eq (Form.normal_relocate _ f)
  cases h with
  | yes | no => nofun
  | int | keyword | str | symbol =>
    rintro _ ⟨⟩ limit
    exact ⟨_, hread limit, hsame⟩

/-- What derives from lexemes is genuine in all its parts. -/
theorem Derives.genuine {ts : List Token} {f : Form} (h : Derives ts f) (hts : ∀ t ∈ ts, t.IsLexeme ∧ t.isComment = false) :
    f.Throughout Form.Genuine := by
  refine h.throughout_of_delimiters (fun kind o c members ho hc => ?_) (fun o c pairs ho hc => ?_) fun t ht g ha => ?_
  · exact ⟨⟨by rintro _ ⟨⟩; exact ho, by rintro _ ⟨⟩; exact hc⟩, .inl trivial⟩
  · exact ⟨⟨by rintro _ ⟨⟩; exact ho, by rintro _ ⟨⟩; exact hc⟩, .inl trivial⟩
  · obtain ⟨hlexeme, hcomment⟩ := hts t ht
    exact ⟨ha.truthful hlexeme hcomment, .inl (ha.readsBack hlexeme hcomment)⟩

/-- What is read from lexemes, at any place among them, is genuine in all its parts. -/
theorem genuine_of_read {ts : List Token} (hts : ∀ t ∈ ts, t.IsLexeme) {limit i : Nat} {f : Form} {c : Cursor}
    (h : ((Cursor.start ts).advance i).read limit = .ok (f, c)) : f.Throughout Form.Genuine := by
  obtain ⟨rest, hscan, rfl⟩ := Cursor.read_eq_ok_iff.mp h
  simp only [Cursor.advance_eq, Cursor.start] at hscan
  obtain ⟨us, t, hsplit, ht, hderives, -⟩ := Pass.scan_spells .nil hscan
  have hmem : ∀ u ∈ us ++ [t], u ∈ ts := fun u hu => List.mem_of_mem_drop (i := i) (by
    rw [hsplit, ← List.singleton_append, ← List.append_assoc]
    exact List.mem_append_left rest hu)
  refine hderives.genuine fun u hu => ?_
  rcases List.mem_append.mp hu with hu | hu
  · obtain ⟨hus, hcomment⟩ := List.mem_filter.mp hu
    exact ⟨hts u (hmem u (List.mem_append_left _ hus)), by simpa using hcomment⟩
  · obtain rfl := List.mem_singleton.mp hu
    exact ⟨hts u (hmem u (List.mem_append_right _ hu)), ht⟩

/-- What is read from a text is genuine in all its parts. -/
theorem genuine_of_readText {limit : Nat} {source : String} {f : Form} (h : readText limit source = .ok f) :
    f.Throughout Form.Genuine := by
  refine (readTokens_eq_ok_iff.mp h).1.genuine fun t ht => ?_
  obtain ⟨ht, hcomment⟩ := List.mem_filter.mp ht
  exact ⟨tokenize_text ht, by simpa using hcomment⟩

/-- The functions of the prelude are genuine. -/
theorem genuine_operatorBuiltin (serial : Nat) (name : String) (op : Operator) :
    (Form.builtin (Environment.operatorBuiltin serial name op)).Genuine :=
  ⟨nofun, .inr ⟨_, rfl, rfl, op, rfl⟩⟩

/-! ## From forms to values -/

/-- The form with other children in the place of its own. -/
def Form.rebuild : Form → List Form → Form
  | .seq kind delims _, values => .seq kind delims values
  | .map delims pairs, values => .map delims ((pairs.map Prod.fst).zip values)
  | f, _ => f

/-- A form gets the children that it is given, if they are as many as its own. -/
theorem Form.children_rebuild {f : Form} {values : List Form} (h : f.children.length = values.length) :
    (f.rebuild values).children = values := by
  cases f with
  | seq => rfl
  | map delims pairs =>
    refine List.map_snd_zip (Nat.le_of_eq ?_)
    rw [← h, children, List.length_map, List.length_map]
  | _ => exact (List.length_eq_zero_iff.mp h.symm).symm

/-- With as many other children, a form keeps its keys. -/
theorem Form.keys_rebuild {f : Form} {values : List Form} (h : f.children.length = values.length) :
    (f.rebuild values).keys = f.keys := by
  cases f with
  | map delims pairs =>
    refine List.map_fst_zip (Nat.le_of_eq ?_)
    rw [← h, children, List.length_map, List.length_map]
  | _ => rfl

/-- The parts of a form are evaluated by putting the values of its children in their place, unless it is a symbol. -/
theorem Form.evalParts_eq {σ : Type} {f : Form} (h : f.isSymbol = false) (host : Host σ) (settings : Settings) :
    f.evalParts host settings = evalMembers host settings f.children >>= fun values => pure (f.rebuild values) := by
  cases f with
  | symbol => cases h
  | int | str | keyword | bool | builtin => exact (pure_bind _ _).symm
  | seq => rfl
  | map delims pairs =>
    have hparts : (Form.map delims pairs).evalParts host settings =
        evalValues host settings pairs >>= fun entries => pure (.map delims entries) := rfl
    rw [hparts, evalValues_eq_map, bind_map_left]
    rfl

/-- What is found under a name has what all that is bound has. -/
theorem Environment.of_lookup_eq_ok {value : Form → Prop} {env : Environment} (h : ∀ b ∈ env.bindings, value b.2) {name : String}
    {v : Form} (hv : env.lookup name = .ok v) : value v := by
  have hfound := Environment.settles_lookup h name
  rw [hv] at hfound
  exact hfound

/-- A property of forms that they keep with other children, that integers have, and among functions only binary operations of
arithmetic. -/
structure Preserved (P : Form → Prop) : Prop where
  rebuild : ∀ f values, P f → P (f.rebuild values)
  ofWord : ∀ w, P (.ofWord w)
  isBinary : ∀ b, P (.builtin b) → b.IsBinary

/-- Being genuine does not depend on children. -/
theorem preserved_genuine : Preserved Form.Genuine where
  rebuild f values h := by
    cases f with
    | seq | map => exact ⟨h.truthful, .inl trivial⟩
    | _ => exact h
  ofWord w := ⟨nofun, .inl trivial⟩
  isBinary b h := by
    rcases h.readsBack with hreads | ⟨c, heq, hbinary⟩
    · exact hreads.elim
    · cases heq
      exact hbinary

namespace Preserved

variable {P : Form → Prop}

/-- What goes through a form and through other children, as many as its own, goes through the form with these. -/
theorem throughout_rebuild (hP : Preserved P) {f : Form} {values : List Form} (hf : f.Throughout P)
    (hlength : f.children.length = values.length) (hvalues : ∀ v ∈ values, v.Throughout P) : (f.rebuild values).Throughout P := by
  obtain ⟨hself, hkeys, -⟩ := Form.throughout_iff.mp hf
  rw [Form.throughout_iff, Form.children_rebuild hlength, Form.keys_rebuild hlength]
  exact ⟨hP.rebuild f values hself, hkeys, hvalues⟩

/-- It goes through what a function that has it gives, whatever the arguments are. -/
theorem throughout_of_run_builtin (hP : Preserved P) {b : Builtin} (hb : P (.builtin b)) {args : List Form} {w : World} {v : Form}
    (hv : (b.run args w).1 = .ok v) : v.Throughout P := by
  obtain ⟨-, op, hop⟩ := hP.isBinary b hb
  rw [Builtin.run_arithmetic hop] at hv
  obtain ⟨x, rfl⟩ := Operator.eq_ofWord_of_apply hv
  exact Form.throughout_of_parts rfl (hP.ofWord x)

/-- It goes through what the application of a form gives that it goes through. -/
theorem throughout_of_apply (hP : Preserved P) {f : Form} (hf : f.Throughout P) {flag : Nat} {args : List Form} {w : World}
    {v : Form} (hv : ((World.host flag).apply f args w).1 = .ok v) : v.Throughout P := by
  rcases (World.host flag).apply_cases f args w with ⟨e, he⟩ | ⟨b, rfl, -, hcall⟩
  · rw [he] at hv
    cases hv
  · rw [hcall] at hv
    exact hP.throughout_of_run_builtin hf.self hv

/-- What goes through the values of the children and through all that is bound goes through what a form makes of the values. -/
theorem throughout_of_combine (hP : Preserved P) {bindings : List (String × Form)} (hbindings : ∀ b ∈ bindings, b.2.Throughout P)
    {flag : Nat} {f : Form} {values : List Form} {w : World} {v : Form}
    (h : List.Forall₂ (fun c u => c.Throughout P → u.Throughout P) f.children values)
    (hv : (f.combine (World.host flag) bindings values w).1 = .ok v) (hf : f.Throughout P) : v.Throughout P := by
  obtain ⟨-, -, hchildren⟩ := Form.throughout_iff.mp hf
  have hvalues : ∀ u ∈ values, u.Throughout P := fun u hu => by
    obtain ⟨c, ⟨hc, hcu⟩⟩ := exists_partner h hu
    exact hcu (hchildren c hc)
  have hrebuild := hP.throughout_rebuild hf h.length_eq hvalues
  cases f with
  | symbol => exact Environment.of_lookup_eq_ok hbindings hv
  | int | str | keyword | bool | builtin | map =>
    cases hv
    exact hrebuild
  | seq kind delims members =>
    cases kind with
    | list =>
      cases values with
      | nil =>
        cases hv
        exact hrebuild
      | cons head args => exact hP.throughout_of_apply (hvalues head List.mem_cons_self) hv
    | vector =>
      cases hv
      exact hrebuild

section

variable {flag : Nat} {settings : Settings} {m : Machine World}

/-- What goes through a form and through all that is bound goes through the value of the form. -/
theorem throughout_of_run (hP : Preserved P) {limit : Nat} {bindings : List (String × Form)}
    (hbindings : ∀ b ∈ bindings, b.2.Throughout P) {f v : Form} (hf : f.Throughout P) {depth : Nat} {w : World}
    (hv : (f.run ⟨World.host flag, limit, bindings⟩ depth w).outcome = .ok v) : v.Throughout P :=
  Form.rel_of_run_eq_ok (R := fun f v => f.Throughout P → v.Throughout P)
    (fun _ _ _ _ h hcombine hf => hP.throughout_of_combine hbindings h hcombine hf) hv hf

/-- What goes through forms goes through the values of their runs, and there are as many of these. -/
theorem throughout_of_run_all (hP : Preserved P) {limit : Nat} {bindings : List (String × Form)}
    (hbindings : ∀ b ∈ bindings, b.2.Throughout P) {fs vs : List Form} (hfs : ∀ f ∈ fs, f.Throughout P) {depth : Nat} {w : World}
    (hvs : (Run.all (fs.map fun f => f.run ⟨World.host flag, limit, bindings⟩ depth) w).outcome = .ok vs) :
    fs.length = vs.length ∧ ∀ v ∈ vs, v.Throughout P := by
  have hpairs : List.Forall₂ (fun f v => f ∈ fs → v.Throughout P) fs vs :=
    Run.forall₂_of_all_eq_ok (fun f _ w v hv hf => hP.throughout_of_run hbindings (hfs f hf) hv) hvs
  refine ⟨hpairs.length_eq, fun v hv => ?_⟩
  obtain ⟨f, hf, hfv⟩ := exists_partner hpairs hv
  exact hfv hf

/-- What goes through a form and through all that is bound goes through what evaluation gives. -/
theorem throughout_of_eval (hP : Preserved P) (hm : ∀ b ∈ m.env.bindings, b.2.Throughout P) {f v : Form} (hf : f.Throughout P)
    (hv : (f.eval (World.host flag) settings m).1 = .ok v) : v.Throughout P := by
  rw [eval_eq_run] at hv
  exact hP.throughout_of_run hm hf hv

/-- It goes through what the evaluation of the parts of the form gives, too. -/
theorem throughout_of_evalParts (hP : Preserved P) (hm : ∀ b ∈ m.env.bindings, b.2.Throughout P) {f v : Form}
    (hf : f.Throughout P) (hv : (f.evalParts (World.host flag) settings m).1 = .ok v) : v.Throughout P := by
  cases hs : f.isSymbol with
  | true =>
    cases f with
    | symbol => exact Environment.of_lookup_eq_ok hm hv
    | _ => cases hs
  | false =>
    rw [Form.evalParts_eq hs, Action.bind_eq_ok_iff] at hv
    obtain ⟨values, hvalues, hv⟩ := hv
    cases hv
    have hruns : evalMembers (World.host flag) settings f.children m = _ :=
      Action.runs_evalMembers (fun c _ => c.eval_runs (World.host flag) settings m.env) m.world m.trace
    rw [hruns] at hvalues
    obtain ⟨hlength, hthroughout⟩ := hP.throughout_of_run_all hm (Form.throughout_iff.mp hf).2.2 hvalues
    exact hP.throughout_rebuild hf hlength hthroughout

end

end Preserved

/-! ## Sessions -/

/-- The forms that are handed over with a command. -/
def Command.forms : Command → List Form
  | .define _ value => [value]
  | .defineBuiltin b => [.builtin b]
  | .eval f => [f]
  | .evalParts f => [f]
  | .apply f args => f :: args
  | .run b args => .builtin b :: args
  | _ => []

/-- The forms that a command gives. -/
def Outcome.forms : Outcome → List Form
  | .form value => [value]
  | .binding value => value.toList
  | _ => []

/-- The forms in an answer. -/
def Answer.forms (a : Answer Outcome) : List Form := (a.result.toOption.map Outcome.forms).getD []

/-- What a command defines was handed over with it, or is a function of the prelude. -/
theorem Command.value_of_mem_definitions {serial : Nat} {c : Command} {d : String × Form} (h : d ∈ c.definitions serial) :
    d.2 ∈ c.forms ∨ ∃ name op, d.2 = .builtin (Environment.operatorBuiltin serial name op) := by
  cases c with
  | define | defineBuiltin =>
    cases List.mem_singleton.mp h
    exact .inl List.mem_cons_self
  | loadPrelude =>
    simp only [definitions, Environment.preludeDefinitions, List.mem_cons, List.not_mem_nil, or_false] at h
    rcases h with rfl | rfl | rfl | rfl <;> exact .inr ⟨_, _, rfl⟩
  | _ => cases h

namespace Session

/-- A session in the making, with the forms at hand: it begins with the prelude, lexemes are read, parts of forms are taken, and
the session is told to do something with forms at hand, in any world; what it gives is at hand, too. -/
inductive Gathers : Session → List Form → Prop where
  | start (serial flag : Nat) (settings : Settings) : Gathers (withPrelude serial flag settings) []
  | read {s : Session} {fs : List Form} (h : Gathers s fs) {ts : List Token} (hts : ∀ t ∈ ts, t.IsLexeme) {limit i : Nat} {f : Form}
    {c : Cursor} (hread : ((Cursor.start ts).advance i).read limit = .ok (f, c)) : Gathers s (f :: fs)
  | part {s : Session} {fs : List Form} (h : Gathers s fs) {f g : Form} (hf : f ∈ fs) (hg : g ∈ f.parts) : Gathers s (g :: fs)
  | obey {s : Session} {fs : List Form} (h : Gathers s fs) (w : World) (serial : Nat) {c : Command} (hc : ∀ f ∈ c.forms, f ∈ fs) :
    Gathers (s.obey w serial c).session ((s.obey w serial c).forms ++ fs)

variable {P : Form → Prop} {s : Session}

/-- What is read from a text is at hand then. -/
theorem Gathers.readText {fs : List Form} (h : s.Gathers fs) {limit : Nat} {source : String} {f : Form}
    (hread : readText limit source = .ok f) : s.Gathers (f :: fs) := by
  unfold TinyLisp.readText readTokens at hread
  cases hform : readForm limit 0 (tokenize source) with
  | error e =>
    rw [hform] at hread
    cases hread
  | ok r =>
    obtain ⟨g, rest⟩ := r
    rw [hform] at hread
    simp only at hread
    split at hread
    · cases hread
      have hcursor : ((Cursor.start (tokenize source)).advance 0).read limit = .ok (f, (Cursor.start (tokenize source)).upTo rest) := by
        rw [Cursor.advance, Cursor.read, Cursor.start, hform]
      exact h.read (fun t ht => tokenize_text ht) hcursor
    · cases hread

/-- What goes through all that is bound and through the forms of a command goes through all that is bound after the command, if the
functions of the prelude have it. -/
theorem Carries.obey_session (hs : s.Carries P)
    (hprelude : ∀ serial name op, P (.builtin (Environment.operatorBuiltin serial name op))) {c : Command}
    (hc : ∀ f ∈ c.forms, f.Throughout P) (w : World) (serial : Nat) : (s.obey w serial c).session.Carries P := by
  intro b hb
  rw [session_obey, bindings_after] at hb
  rcases List.mem_append.mp hb with hb | hb
  · rcases Command.value_of_mem_definitions (List.mem_reverse.mp hb) with hform | ⟨name, op, heq⟩
    · exact hc b.2 hform
    · rw [heq]
      exact Form.throughout_of_parts rfl (hprelude _ _ _)
  · exact hs b hb

/-- The form that is given where an action gives a form is the value of the action. -/
theorem eq_ok_of_mem_forms_perform {w : World} {act : Action World Form} {v : Form}
    (h : v ∈ ((s.perform w act).map Outcome.form).forms) : (act ⟨s.env, w, #[]⟩).1 = .ok v := by
  have hresult : ((s.perform w act).map Outcome.form).result = ((act ⟨s.env, w, #[]⟩).1.mapError Error.eval).map .form := rfl
  unfold Answer.forms at h
  rw [hresult] at h
  cases hact : (act ⟨s.env, w, #[]⟩).1 with
  | error e =>
    rw [hact] at h
    cases h
  | ok u =>
    rw [hact] at h
    cases List.mem_singleton.mp h
    rfl

/-- No form is given where a text is. -/
theorem not_mem_forms_text (a : Answer String) (v : Form) : v ∉ (a.map Outcome.text).forms := by
  unfold Answer.forms Answer.map
  cases a.result <;> exact nofun

/-- It goes through the forms that the command gives as well. -/
theorem Carries.obey_forms (hP : Preserved P) (hs : s.Carries P) {c : Command} (hc : ∀ f ∈ c.forms, f.Throughout P) (w : World)
    (serial : Nat) : ∀ v ∈ (s.obey w serial c).forms, v.Throughout P := by
  intro v hv
  -- The other commands give no forms.
  cases c with
  | eval f => exact hP.throughout_of_eval (m := ⟨s.env, w, #[]⟩) hs (hc f List.mem_cons_self) (eq_ok_of_mem_forms_perform hv)
  | evalParts f =>
    exact hP.throughout_of_evalParts (m := ⟨s.env, w, #[]⟩) hs (hc f List.mem_cons_self) (eq_ok_of_mem_forms_perform hv)
  | apply f args => exact hP.throughout_of_apply (hc f List.mem_cons_self) (eq_ok_of_mem_forms_perform hv)
  | run b args => exact hP.throughout_of_run_builtin (hc _ List.mem_cons_self).self (eq_ok_of_mem_forms_perform hv)
  | lookup name => exact Environment.of_lookup_eq_ok hs (eq_ok_of_mem_forms_perform hv)
  | get name =>
    have hget : s.env.get? name = some v := Option.mem_toList.mp hv
    have hfound : s.env.lookup name = .ok v := by rw [Environment.lookup, hget]
    exact Environment.of_lookup_eq_ok hs hfound
  | evalLine | echoLine => exact absurd hv (not_mem_forms_text _ v)
  | enterCall limit =>
    simp only [obey] at hv
    cases henter : s.env.enterCall limit <;> rw [henter] at hv <;> cases hv
  | _ => cases hv

/-- All that a session with the prelude comes to handle is genuine in all its parts: the forms at hand, and what is bound. -/
theorem Gathers.genuine {fs : List Form} (h : s.Gathers fs) : s.Carries Form.Genuine ∧ ∀ f ∈ fs, f.Throughout Form.Genuine := by
  induction h with
  | start serial flag settings =>
    exact ⟨carries_withPrelude (fun name _ op => genuine_operatorBuiltin serial name op) flag settings, nofun⟩
  | read _ hts hread ih => exact ⟨ih.1, List.forall_mem_cons.mpr ⟨genuine_of_read hts hread, ih.2⟩⟩
  | part _ hf hg ih => exact ⟨ih.1, List.forall_mem_cons.mpr ⟨(ih.2 _ hf).part hg, ih.2⟩⟩
  | @obey s fs _ w serial c hc ih =>
    have hforms : ∀ f ∈ c.forms, f.Throughout Form.Genuine := fun f hf => ih.2 f (hc f hf)
    refine ⟨ih.1.obey_session genuine_operatorBuiltin hforms w serial, fun v hv => ?_⟩
    rcases List.mem_append.mp hv with hv | hv
    · exact ih.1.obey_forms preserved_genuine hforms w serial v hv
    · exact ih.2 v hv

end Session

end TinyLisp

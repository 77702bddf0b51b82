import TinyLisp.Proofs.Depth
import TinyLisp.Proofs.Echo

/-!
# Results stand for themselves

A form is inert when it holds no symbol and no list but the empty one. An inert form is its own value (`Form.Inert.run`). Where
only operations of arithmetic are bound, the value of a form that was read is inert, and takes no more levels of nesting and of
depth than the form (`Form.yields_of_run_eq_ok`). So the line that a value is printed as has the result that it is, unless a
function shows in it (`result_line_same_result`).
-/

namespace TinyLisp

variable {σ : Type}

/-! ## Inert forms -/

/-- Whether a form stands for itself as far as its parts do: it is no symbol and no list but the empty one. -/
def Form.StandsForItself : Form → Prop
  | .symbol .. => False
  | .seq .list _ members => members = []
  | _ => True

/-- Whether a form holds no symbol and no list but the empty one. -/
def Form.Inert (f : Form) : Prop := ∀ g ∈ f.parts, g.StandsForItself

/-- A form that stands for itself is made of its own children. -/
theorem Form.combine_children {f : Form} (h : f.StandsForItself) (host : Host σ) (bindings : List (String × Form)) (w : σ) :
    f.combine host bindings f.children w = (.ok f, w) := by
  rcases f with _ | _ | _ | _ | _ | ⟨_ | _, delims, members⟩ | ⟨delims, pairs⟩ | _
  case symbol => exact h.elim
  case seq.list =>
    obtain rfl : members = [] := h
    rfl
  case map =>
    have hzip : (pairs.map Prod.fst).zip (pairs.map Prod.snd) = pairs := (List.zip_of_prod rfl rfl).symm
    simp only [combine, children, hzip]
  all_goals rfl

/-- A key stands for itself. -/
theorem Key.standsForItself (k : Key) : k.toForm.StandsForItself := by cases k <;> trivial

/-- An inert form is its own value where it has depth enough and evaluation is not to stop. -/
theorem Form.Inert.run {f : Form} (h : f.Inert) {s : Surroundings σ} {depth : Nat} {w : σ}
    (hint : s.host.interrupted w = false) (hfits : depth + f.height ≤ s.limit) : (f.run s depth w).result = (.ok f, w) := by
  induction f using Form.induction_children generalizing depth with
  | h f ih =>
    obtain ⟨hself, -, hchildren⟩ := Form.forall_parts_iff.mp h
    obtain ⟨hdepth, hdeeper⟩ := Form.add_height_le_iff.mp hfits
    have hvalues : List.Forall₂ (fun (c : Form) v => (c.run s (depth + 1) w).result = (.ok v, w)) f.children f.children :=
      List.forall₂_same.mpr fun c hc => ih c hc (hchildren c hc) (hdeeper c hc)
    rw [Form.run_of_values hint hdepth hvalues, Form.combine_children hself]

/-! ## Values among operations of arithmetic -/

/-- Whether a form is an operation of arithmetic. -/
def Form.IsOperation (f : Form) : Prop := ∃ b op, f = .builtin b ∧ b.object.routine = .arithmetic op

/-- Whether a form, apart from what it holds, may be a part of a value: it stands for itself, and it is an operation of arithmetic
or what its own text is read as. -/
structure Form.Settled (f : Form) : Prop where
  standsForItself : f.StandsForItself
  readsBack : f.IsOperation ∨ f.ReadsBack

/-- Whether a form may be the value of another: all its parts may be, and it needs no more levels of nesting and of depth. -/
structure Form.Yields (f v : Form) : Prop where
  settled : ∀ g ∈ v.parts, g.Settled
  nesting : v.nesting ≤ f.nesting
  height : v.height ≤ f.height

/-- In a list in step with another, an element has a partner in the other. -/
theorem exists_partner {α β : Type} {R : α → β → Prop} {as : List α} {bs : List β} (h : List.Forall₂ R as bs) {b : β}
    (hb : b ∈ bs) : ∃ a ∈ as, R a b := by
  induction h with
  | nil => cases hb
  | cons hab _ ih =>
    rcases List.mem_cons.mp hb with rfl | hb
    · exact ⟨_, List.mem_cons_self, hab⟩
    · obtain ⟨a, ha, hR⟩ := ih hb
      exact ⟨a, List.mem_cons_of_mem _ ha, hR⟩

/-- A key may be a part of a value where it is read back. -/
theorem settled_key {k : Key} (h : k.toForm.ReadsBack) : k.toForm.Settled where
  standsForItself := k.standsForItself
  readsBack := .inr h

/-- A form that holds nothing may be the value of any form. -/
theorem Form.yields_of_children_eq_nil {v : Form} (hparts : v.parts = [v]) (hchildren : v.children = [])
    (hnesting : v.nesting = 0) (hv : v.Settled) (f : Form) : f.Yields v where
  settled := by
    rw [hparts]
    exact List.forall_mem_singleton.mpr hv
  nesting := by
    rw [hnesting]
    exact Nat.zero_le _
  height := by
    rw [Form.height_eq v, hchildren, Form.height_eq f]
    exact Nat.le_add_left 1 _

/-- A collection of values may be the value of the collection of the forms. -/
theorem Form.yields_collection {f v : Form} (hf : f.Readable) (hcoll : f.isCollection = true) (hcoll' : v.isCollection = true)
    (hself : v.StandsForItself) (hkeys : v.keys = f.keys) (h : List.Forall₂ Form.Yields f.children v.children) : f.Yields v := by
  obtain ⟨-, hreads, -⟩ := Form.forall_parts_iff.mp hf
  have hchild : ∀ u ∈ v.children, ∃ c ∈ f.children, c.Yields u := fun u => exists_partner h
  refine ⟨?_, ?_, ?_⟩
  · refine Form.forall_parts_iff.mpr ⟨⟨hself, .inr ?_⟩, ?_, ?_⟩
    · cases v <;> trivial
    · rw [hkeys]
      exact fun k hk => settled_key (hreads k hk)
    · intro u hu
      obtain ⟨c, -, hcu⟩ := hchild u hu
      exact hcu.settled
  · obtain ⟨n, hn⟩ : ∃ n, f.nesting = n + 1 := by cases f <;> first | exact ⟨_, rfl⟩ | cases hcoll
    rw [hn, Form.nesting_le_succ_iff hcoll']
    intro u hu
    obtain ⟨c, hc, hcu⟩ := hchild u hu
    exact Nat.le_trans hcu.nesting ((Form.nesting_le_succ_iff hcoll).mp (Nat.le_of_eq hn) c hc)
  · have hle : 0 + v.height ≤ f.height := by
      refine Form.add_height_le_iff.mpr ⟨?_, fun u hu => ?_⟩
      · rw [Form.height_eq]
        exact Nat.succ_pos _
      · obtain ⟨c, hc, hcu⟩ := hchild u hu
        have hlt : c.height < f.height := Form.height_lt_of_mem_children hc
        have hle : u.height ≤ c.height := hcu.height
        omega
    rwa [Nat.zero_add] at hle

/-- What a function gives that is the value of a member may be the value of the list. -/
theorem Form.yields_apply {flag : Nat} {f head : Form} (hhead : head.Settled) {args : List Form} {w : World} {v : Form}
    (hv : ((World.host flag).apply head args w).1 = .ok v) : f.Yields v := by
  rcases (World.host flag).apply_cases head args w with ⟨e, he⟩ | ⟨b, rfl, -, hcall⟩
  · rw [he] at hv
    cases hv
  · rcases hhead.readsBack with ⟨b, op, heq, hop⟩ | hreads
    · cases heq
      have hrun : (World.host flag).call b args w = (op.apply args, w) := Builtin.run_arithmetic hop args w
      rw [hcall, hrun] at hv
      obtain ⟨x, rfl⟩ := Operator.eq_ofWord_of_apply hv
      have hsettled : (Form.ofWord x).Settled := ⟨trivial, .inr trivial⟩
      exact Form.yields_of_children_eq_nil rfl rfl rfl hsettled f
    · exact hreads.elim

/-- Where only operations of arithmetic are bound, what a readable form makes of values of its children may be its value. -/
theorem Form.yields_of_combine {flag : Nat} {bindings : List (String × Form)} (hbindings : ∀ b ∈ bindings, b.2.IsOperation)
    {f : Form} {values : List Form} {w : World} {v : Form}
    (h : List.Forall₂ (fun c u => c.Readable → c.Yields u) f.children values)
    (hv : (f.combine (World.host flag) bindings values w).1 = .ok v) (hf : f.Readable) : f.Yields v := by
  obtain ⟨hself, -, hreadable⟩ := Form.forall_parts_iff.mp hf
  have hyields : List.Forall₂ Form.Yields f.children values :=
    ((List.forall₂_and_left _ _).mpr ⟨hreadable, h⟩).imp fun c u ⟨hc, hcu⟩ => hcu hc
  cases f with
  | symbol name token =>
    have hlookup : Settles Form.IsOperation (fun _ => True) (({ bindings } : Environment).lookup name) :=
      Environment.settles_lookup hbindings name
    have hfound : ({ bindings } : Environment).lookup name = .ok v := hv
    rw [hfound] at hlookup
    obtain ⟨c, op, rfl, hop⟩ := hlookup
    have hsettled : (Form.builtin c).Settled := ⟨trivial, .inl ⟨c, op, rfl, hop⟩⟩
    exact Form.yields_of_children_eq_nil rfl rfl rfl hsettled _
  | int | str | keyword | bool =>
    cases hv
    refine Form.yields_of_children_eq_nil rfl rfl rfl ⟨?_, .inr hself⟩ _
    trivial
  | builtin => exact hself.elim
  | seq kind delims members =>
    cases kind with
    | list =>
      cases hyields with
      | nil =>
        cases hv
        exact Form.yields_collection hf rfl rfl rfl rfl .nil
      | cons hhead _ => exact Form.yields_apply (hhead.settled _ (mem_parts_self _)) hv
    | vector =>
      cases hv
      exact Form.yields_collection hf rfl rfl trivial rfl hyields
  | map delims pairs =>
    cases hv
    have hlength : (pairs.map Prod.fst).length = values.length := by
      rw [← hyields.length_eq, children, List.length_map, List.length_map]
    refine Form.yields_collection hf rfl rfl trivial ?_ ?_
    · exact List.map_fst_zip (Nat.le_of_eq hlength)
    · have hvalues : (Form.map delims ((pairs.map Prod.fst).zip values)).children = values :=
        List.map_snd_zip (Nat.le_of_eq hlength.symm)
      rw [hvalues]
      exact hyields

/-- Where only operations of arithmetic are bound, the value that the run of a readable form gives may be its value. -/
theorem Form.yields_of_run_eq_ok {flag limit : Nat} {bindings : List (String × Form)}
    (hbindings : ∀ b ∈ bindings, b.2.IsOperation) {f v : Form} (hf : f.Readable) {depth : Nat} {w : World}
    (hv : (f.run ⟨World.host flag, limit, bindings⟩ depth w).outcome = .ok v) : f.Yields v :=
  Form.rel_of_run_eq_ok (R := fun f v => f.Readable → f.Yields v)
    (fun _ _ _ _ h hcombine hf => Form.yields_of_combine hbindings h hcombine hf) hv hf

namespace Session

/-- The prelude binds operations of arithmetic only. -/
theorem isOperation_of_mem_prelude (serial flag : Nat) (settings : Settings) :
    ∀ b ∈ (withPrelude serial flag settings).env.bindings, b.2.IsOperation := by
  intro b hb
  obtain ⟨name, -, op, heq⟩ := exists_of_mem_prelude serial flag settings b hb
  exact ⟨_, op, heq, rfl⟩

/-- In an arithmetic session, the line that an inert form is printed as has that line as its result, if the line can be read and
evaluation has depth enough and is not to stop. -/
theorem Arithmetic.result_print {s : Session} (hs : s.Arithmetic) {w : World} {v : Form} (hinert : v.Inert)
    (harith : v.Arithmetic) (hreads : v.normal.Readable) (hnesting : v.normal.nesting ≤ defaultNesting)
    (hint : w.isRaised s.flag = false) (hfits : s.env.depth + v.height ≤ s.settings.maxDepth) :
    (s.evalLine w (v.print .readable)).result = .ok (v.print .readable) := by
  obtain ⟨g, hg, hb⟩ := readText_print hreads hnesting
  have hv : (v.eval s.host s.settings ⟨s.env, w, #[]⟩).1 = .ok v := by
    rw [eval_eq_run]
    exact congrArg Prod.fst (hinert.run (s := ⟨s.host, s.settings.maxDepth, s.env.bindings⟩) hint hfits)
  obtain ⟨u, hu, hn⟩ := echoed v harith g v ⟨s.env, w, #[]⟩ hb (readable_of_readText hg).arithmetic hs hv
  exact result_evalLine_eq_ok_iff.mpr ⟨g, u, hg, hu, (print_eq_of_normal_eq hn .readable).symm⟩

end Session

/-- Without tokens and replaced values, a part of a value still may be one. -/
theorem Form.Settled.normal {f : Form} (h : f.Settled) : f.normal.Settled where
  standsForItself := by
    rcases f with _ | _ | _ | _ | _ | ⟨_ | _, delims, members⟩ | _ | _
    case symbol => exact h.standsForItself.elim
    case seq.list =>
      obtain rfl : members = [] := h.standsForItself
      rfl
    all_goals trivial
  readsBack := by
    rcases h.readsBack with ⟨b, op, rfl, hop⟩ | hreads
    · exact .inl ⟨b, op, rfl, hop⟩
    · exact .inr hreads.normal

/-- A value that shows no function is read back. -/
theorem Form.Yields.readable_normal {f v : Form} (h : f.Yields v) (hb : ∀ b, .builtin b ∉ v.normal.parts) :
    v.normal.Readable := by
  intro g hg
  have hg' : g.Settled := forall_parts_normal (P := Form.Settled) (fun _ => .normal) h.settled g hg
  rcases hg'.readsBack with ⟨b, op, rfl, -⟩ | hreads
  · exact absurd hg (hb b)
  · exact hreads

/-- Results are fixpoints. The result of a line in a session with the prelude is a value, printed, and the value holds no symbol
and no list but the empty one. Unless a function shows in the value, the result, taken as a line, has itself as its result: in
that session, and in the session and the world that the first line leaves behind. -/
theorem result_line_same_result (serial flag : Nat) (settings : Settings) (w : World) (line out : String)
    (h : ((Session.withPrelude serial flag settings).evalLine w line).result = .ok out) :
    ∃ f v, readText defaultNesting line = .ok f ∧
      (f.eval (World.host flag) settings ⟨(Session.withPrelude serial flag settings).env, w, #[]⟩).1 = .ok v ∧
      out = v.print .readable ∧ v.Inert ∧
      ((∀ b, .builtin b ∉ v.normal.parts) →
        ((Session.withPrelude serial flag settings).evalLine w out).result = .ok out ∧
          (((Session.withPrelude serial flag settings).evalLine w line).session.evalLine
            ((Session.withPrelude serial flag settings).evalLine w line).world out).result = .ok out) := by
  have hs : (Session.withPrelude serial flag settings).Arithmetic := Session.arithmetic_withPrelude serial flag settings
  obtain ⟨f, v, hread, hv, rfl⟩ := Session.result_evalLine_eq_ok_iff.mp h
  have hf : f.Readable := readable_of_readText hread
  have hrun := hv
  rw [eval_eq_run] at hrun
  have hyields : f.Yields v := Form.yields_of_run_eq_ok (Session.isOperation_of_mem_prelude serial flag settings) hf hrun
  have hinert : v.Inert := fun g hg => (hyields.settled g hg).standsForItself
  refine ⟨f, v, hread, hv, rfl, hinert, fun hb => ?_⟩
  have hint : w.isRaised flag = false := (eval_eq_ok_iff.mp hv).1
  have hnesting : v.normal.nesting ≤ defaultNesting := by
    calc v.normal.nesting ≤ v.nesting := nesting_normal_le v
      _ ≤ f.nesting := hyields.nesting
      _ ≤ defaultNesting := (readTokens_eq_ok_iff.mp hread).2
  have hfits : 0 + v.height ≤ settings.maxDepth := by
    have hdecides := f.run_decides (s := ⟨World.host flag, settings.maxDepth, _⟩) (World.host_neverOverflows flag)
      (Nat.le_of_lt (Form.lt_of_run_eq_ok hrun)) w
    have hle : v.height ≤ f.height := hyields.height
    have hfit : 0 + f.height ≤ settings.maxDepth := hdecides.of_ok v hrun
    omega
  have hm : Machine.Arithmetic (⟨(Session.withPrelude serial flag settings).env, w, #[]⟩ : Machine World) := hs
  have hout := hs.result_print hinert ((hf.arithmetic.eval hm).2 v hv) (hyields.readable_normal hb) hnesting hint hfits
  obtain ⟨hsession, hworld⟩ := hs.evalLine w line
  refine ⟨hout, ?_⟩
  rw [hsession, hworld]
  exact hout

/-- A vector of a sum and of a map that is given one key twice has a result, and the line that the result is printed as has
itself as its result. -/
theorem result_line_same_result_nested :
    (Session.standard.evalLine {} "[(+ 1 2) \x7b:a 1 :a [(* 2 3)]\x7d]").result = .ok "[3 \x7b:a [6]\x7d]" ∧
      (Session.standard.evalLine {} "[3 \x7b:a [6]\x7d]").result = .ok "[3 \x7b:a [6]\x7d]" := by
  have h : (Session.standard.evalLine {} "[(+ 1 2) \x7b:a 1 :a [(* 2 3)]\x7d]").result = .ok "[3 \x7b:a [6]\x7d]" := by
    cbv
  obtain ⟨f, v, hread, hv, -, -, hsame⟩ := result_line_same_result 0 0 {} {} _ _ h
  have htypes : ∀ g ∈ v.normal.parts, g.type ≠ .builtin := by
    cbv at hread
    cases hread
    cbv at hv
    cases hv
    decide
  exact ⟨h, (hsame fun b hb => htypes _ hb rfl).1⟩

end TinyLisp

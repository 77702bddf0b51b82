import Mathlib
import TinyLisp.Proofs.Truthful

/-!
# What is quoted of a form that is no function

Where a form that is no function stands in the place of one, the complaint quotes it: by the text of its token, or else as it is
printed. `Form.Misapplies` says which value that is, wherever in a form the application stands. A form fails with the complaint
about this value (`Form.Misapplies.outcome`), and there is one wherever a form fails so (`Preserved.exists_misapplies`). In a
session that handles genuine forms only, the quotation of a value without functions is read as a form that is the same
(`misapplied_heads_quoted`).
-/

namespace TinyLisp

variable {σ : Type}

/-! ## Applications of forms that are no functions -/

/-- The value that a form, at a depth and in a state of the host, comes to apply although it is no function. It is the first value
of a list whose members have values, or that of a child, where those before the child have values. -/
inductive Form.Misapplies (s : Surroundings σ) : Form → Nat → σ → Form → Prop where
  | here {delims : Delimiters} {members : List Form} {depth : Nat} {w : σ} {head : Form} {args : List Form}
    (hbegin : (s.begin (.seq .list delims members) depth w).outcome = .ok ())
    (hvalues : (Run.all (members.map fun c => c.run s (depth + 1)) w).outcome = .ok (head :: args))
    (hhead : head.isCallable = false) : Misapplies s (.seq .list delims members) depth w head
  | inside {f : Form} {depth : Nat} {w : σ} {before rest : List Form} {c : Form} {values : List Form} {head : Form}
    (hbegin : (s.begin f depth w).outcome = .ok ()) (hchildren : f.children = before ++ c :: rest)
    (hvalues : (Run.all (before.map fun c => c.run s (depth + 1)) w).outcome = .ok values)
    (h : Misapplies s c (depth + 1) (Run.all (before.map fun c => c.run s (depth + 1)) w).world head) :
    Misapplies s f depth w head

/-- Applying a form that is no function comes to the complaint about it. -/
theorem Host.apply_of_not_isCallable {head : Form} (h : head.isCallable = false) (host : Host σ) (args : List Form) (w : σ) :
    host.apply head args w = (.error head.notCallable, w) := by
  cases head <;> first | rfl | cases h

/-- A form that comes to apply such a value fails with the complaint about it. -/
theorem Form.Misapplies.outcome {s : Surroundings σ} {f head : Form} {depth : Nat} {w : σ} (h : f.Misapplies s depth w head) :
    (f.run s depth w).outcome = .error head.notCallable := by
  induction h with
  | here hbegin hvalues hhead =>
    refine Form.run_eq_error_iff.mpr (.inr ⟨hbegin, .inr ⟨_, hvalues, ?_⟩⟩)
    exact congrArg Prod.fst (Host.apply_of_not_isCallable hhead s.host _ _)
  | inside hbegin hchildren hvalues _ ih =>
    refine Form.run_eq_error_iff.mpr (.inr ⟨hbegin, .inl ?_⟩)
    rw [hchildren]
    exact Run.all_eq_error_iff.mpr ⟨_, _, _, _, rfl, hvalues, ih⟩

namespace Preserved

variable {P : Form → Prop} {flag limit : Nat} {bindings : List (String × Form)}

/-- Binary operations do not complain about heads, so where an application comes to such a complaint, no function is applied. -/
theorem not_isCallable_of_apply (hP : Preserved P) {head : Form} (hhead : head.Throughout P) {args : List Form} {w : World}
    {text : String} (h : ((World.host flag).apply head args w).1 = .error (.notCallable text)) : head.isCallable = false := by
  cases head with
  | builtin b =>
    rw [Host.apply] at h
    cases hb : b.checkArity args.length with
    | error e =>
      rw [hb] at h
      cases h.symm.trans (congrArg Except.error (Builtin.eq_of_checkArity_error hb))
    | ok =>
      rw [hb] at h
      obtain ⟨x, y, rfl⟩ := (hP.isBinary b hhead.self).exists_operands hb
      obtain ⟨-, op, hop⟩ := hP.isBinary b hhead.self
      have hrun : (World.host flag).call b [x, y] w = (op.apply [x, y], w) := Builtin.run_arithmetic hop _ w
      rw [hrun] at h
      obtain ⟨got, he⟩ | he | he := Operator.apply_error_cases h <;> cases he
  | _ => rfl

/-- Where the only functions are binary operations, a complaint about a head is about a value that the form comes to apply. -/
theorem exists_misapplies (hP : Preserved P) (hbindings : ∀ b ∈ bindings, b.2.Throughout P) {f : Form} (hf : f.Throughout P)
    {depth : Nat} {w : World} {text : String}
    (h : (f.run ⟨World.host flag, limit, bindings⟩ depth w).outcome = .error (.notCallable text)) :
    ∃ head, f.Misapplies ⟨World.host flag, limit, bindings⟩ depth w head := by
  induction f using Form.induction_children generalizing depth w with
  | h f ih =>
    obtain ⟨-, -, hchildren⟩ := Form.throughout_iff.mp hf
    -- The complaint comes from the beginning, from a child, or from what is made of the values; only a list makes it there.
    rcases Form.run_eq_error_iff.mp h with hbegin | ⟨hbegin, hfault | ⟨values, hvalues, hcombine⟩⟩
    · unfold Surroundings.begin at hbegin
      split_ifs at hbegin <;> cases hbegin
    · obtain ⟨before, c, rest, values, hsplit, hbefore, hc⟩ := Run.all_eq_error_iff.mp hfault
      have hmem : c ∈ f.children := hsplit ▸ List.mem_append_right _ List.mem_cons_self
      obtain ⟨head, hhead⟩ := ih c hmem (hchildren c hmem) hc
      exact ⟨head, .inside hbegin hsplit hbefore hhead⟩
    · obtain ⟨-, hthroughout⟩ := hP.throughout_of_run_all hbindings hchildren hvalues
      rcases f with _ | name | _ | _ | _ | ⟨_ | _, delims, members⟩ | _ | _
      case symbol =>
        have hlookup : ({ bindings } : Environment).lookup name = .error (.notCallable text) := hcombine
        unfold Environment.lookup at hlookup
        split at hlookup <;> cases hlookup
      case seq.list =>
        cases values with
        | nil => cases hcombine
        | cons head args =>
          exact ⟨head, .here hbegin hvalues (hP.not_isCallable_of_apply (hthroughout head List.mem_cons_self) hcombine)⟩
      all_goals cases hcombine

/-- What goes through a form goes through the value that it comes to apply. -/
theorem throughout_of_misapplies (hP : Preserved P) (hbindings : ∀ b ∈ bindings, b.2.Throughout P) {f head : Form}
    (hf : f.Throughout P) {depth : Nat} {w : World}
    (h : f.Misapplies ⟨World.host flag, limit, bindings⟩ depth w head) : head.Throughout P := by
  induction h with
  | here _ hvalues _ =>
    exact (hP.throughout_of_run_all hbindings (Form.throughout_iff.mp hf).2.2 hvalues).2 _ List.mem_cons_self
  | inside _ hchildren _ _ ih =>
    exact ih ((Form.throughout_iff.mp hf).2.2 _ (hchildren ▸ List.mem_append_right _ List.mem_cons_self))

end Preserved

/-! ## Quotations -/

/-- What a form is quoted as is read as a form that is the same, if the form is genuine in all its parts, shows no function and is
nested within the limit. -/
theorem exists_readText_literal {f : Form} (h : f.Throughout Form.Genuine) (hb : ∀ b, .builtin b ∉ f.normal.parts) {limit : Nat}
    (hn : f.normal.nesting ≤ limit) : ∃ g, readText limit f.literal = .ok g ∧ (g == f) = true := by
  have hprinted : ∃ g, readText limit (f.print .readable) = .ok g ∧ (g == f) = true := by
    have hreadable : f.normal.Readable := by
      intro g hg
      have hpart : ∀ g ∈ f.normal.parts, g.ReadsBack ∨ ∃ b, g = .builtin b ∧ b.IsBinary := by
        refine forall_parts_normal (fun g hg => ?_) fun g hg => (h g hg).readsBack
        rcases hg with hreads | ⟨b, rfl, hbinary⟩
        · exact .inl hreads.normal
        · exact .inr ⟨b, rfl, hbinary⟩
      rcases hpart g hg with hreads | ⟨b, rfl, -⟩
      · exact hreads
      · exact absurd hg (hb b)
    obtain ⟨g, hg, hbare⟩ := readText_print hreadable hn
    refine ⟨g, hg, same_of_normal_eq ?_⟩
    rw [← normal_bare, hbare, normal_normal]
  have htruthful := h.self.truthful
  unfold Form.literal Form.sourceText?
  cases f with
  | seq | map => exact hprinted
  | bool | builtin => exact hprinted
  | int _ token | symbol _ token | str _ token | keyword _ token =>
    cases token with
    | none => exact hprinted
    | some t => exact htruthful t rfl limit

namespace Session

/-- What evaluation in a session depends on. -/
def surroundings (s : Session) : Surroundings World := ⟨s.host, s.settings.maxDepth, s.env.bindings⟩

/-- A line comes to an error of evaluation exactly when it is read and the run of its form comes to the error. -/
theorem result_evalLine_eq_error_iff {s : Session} {w : World} {line : String} {e : EvalError} :
    (s.evalLine w line).result = .error (.eval e) ↔
      ∃ f, readText defaultNesting line = .ok f ∧ (f.run s.surroundings s.env.depth w).outcome = .error e := by
  cases hread : readText defaultNesting line with
  | error e => simp [result_evalLine_of_error hread]
  | ok f =>
    have hrun : (f.eval s.host s.settings ⟨s.env, w, #[]⟩).1 = (f.run s.surroundings s.env.depth w).outcome :=
      congrArg Prod.fst (eval_eq_run s.host s.settings f ⟨s.env, w, #[]⟩)
    rw [result_evalLine_of_ok hread, hrun]
    simp only [Except.ok.injEq, exists_eq_left']
    cases (f.run s.surroundings s.env.depth w).outcome <;> simp [Except.mapError, Except.map]

end Session

/-- A session that began with the prelude and was told to define and evaluate nothing but forms that were read or computed handles
truthful forms only: those forms and all that is bound are truthful in all their parts. If a line complains about a form that is
no function, it is about a value that the form of the line comes to apply, and quotes it. Unless a function shows in the value, the
quotation is read as a form that is the same, where the limit allows for the nesting of the value. What was replaced in a map does
not show, and its nesting does not count. -/
theorem misapplied_heads_quoted {s : Session} {fs : List Form} (h : s.Gathers fs) :
    (∀ f ∈ fs, f.Throughout Form.Truthful) ∧ s.Carries Form.Truthful ∧
      ∀ w line text, (s.evalLine w line).result = .error (.eval (.notCallable text)) →
        ∃ f, readText defaultNesting line = .ok f ∧ (∃ head, f.Misapplies s.surroundings s.env.depth w head) ∧
          ∀ head, f.Misapplies s.surroundings s.env.depth w head →
            head.Throughout Form.Truthful ∧ text = head.literal ∧
              ((∀ b, .builtin b ∉ head.normal.parts) → ∀ limit, head.normal.nesting ≤ limit →
                ∃ g, readText limit text = .ok g ∧ (g == head) = true) := by
  obtain ⟨hcarries, hforms⟩ := h.genuine
  refine ⟨fun f hf => (hforms f hf).imp fun _ => Form.Genuine.truthful,
    fun b hb => (hcarries b hb).imp fun _ => Form.Genuine.truthful, fun w line text htext => ?_⟩
  obtain ⟨f, hread, hrun⟩ := Session.result_evalLine_eq_error_iff.mp htext
  have hf : f.Throughout Form.Genuine := genuine_of_readText hread
  refine ⟨f, hread, preserved_genuine.exists_misapplies hcarries hf hrun, fun head hhead => ?_⟩
  have hgenuine : head.Throughout Form.Genuine := preserved_genuine.throughout_of_misapplies hcarries hf hhead
  have heq : text = head.literal := EvalError.notCallable.inj (Except.error.inj (hrun.symm.trans hhead.outcome))
  refine ⟨hgenuine.imp fun _ => Form.Genuine.truthful, heq, fun hb limit hn => ?_⟩
  rw [heq]
  exact exists_readText_literal hgenuine hb hn

/-- A numeral with zeros in front is quoted as it stands in the line, and a vector that holds such a numeral and a string over two
lines is quoted as it is printed. Both are read back. -/
theorem misapplied_heads_quoted_back :
    let x : Form := .seq .vector ⟨some ⟨"[", 0⟩, some ⟨"]", 10⟩⟩ [.int 7 (some ⟨"007", 1⟩), .str "a\nb" (some ⟨"\"a\nb\"", 5⟩)]
    let s := (Session.standard.obey {} 1 (.define "x" x)).session
    (s.evalLine {} "(007 1)").result = .error (.eval (.notCallable "007")) ∧
      (s.evalLine {} "[(x 1)]").result = .error (.eval (.notCallable "[7 \"a\\nb\"]")) ∧
      (∃ g, readText 0 "007" = .ok g ∧ (g == .int 7 (some ⟨"007", 1⟩)) = true) ∧
      ∃ g, readText 1 "[7 \"a\\nb\"]" = .ok g ∧ (g == x) = true := by
  intro x s
  have hx : readText 1 "[007 \"a\nb\"]" = .ok x := by cbv
  have hread : Session.standard.Gathers [x] := (Session.Gathers.start 0 0 {}).readText hx
  have hgathers : s.Gathers [x] := hread.obey {} 1 (c := .define "x" x) (by simp [Command.forms])
  obtain ⟨-, -, hquoted⟩ := misapplied_heads_quoted hgathers
  have hseven : (s.evalLine {} "(007 1)").result = .error (.eval (.notCallable "007")) := by cbv
  have hvector : (s.evalLine {} "[(x 1)]").result = .error (.eval (.notCallable "[7 \"a\\nb\"]")) := by cbv
  refine ⟨hseven, hvector, ?_, ?_⟩
  · obtain ⟨f, hf, -, hall⟩ := hquoted _ _ _ hseven
    have hline : readText defaultNesting "(007 1)" =
        .ok (.seq .list ⟨some ⟨"(", 0⟩, some ⟨")", 6⟩⟩ [.int 7 (some ⟨"007", 1⟩), .int 1 (some ⟨"1", 5⟩)]) := by cbv
    cases hf.symm.trans hline
    obtain ⟨-, -, hback⟩ := hall _ (.here rfl rfl rfl)
    exact hback (by simp [Form.normal, Form.parts]) 0 (Nat.zero_le _)
  · obtain ⟨f, hf, -, hall⟩ := hquoted _ _ _ hvector
    let application : Form :=
      .seq .list ⟨some ⟨"(", 1⟩, some ⟨")", 5⟩⟩ [.symbol "x" (some ⟨"x", 2⟩), .int 1 (some ⟨"1", 4⟩)]
    have hline : readText defaultNesting "[(x 1)]" = .ok (.seq .vector ⟨some ⟨"[", 0⟩, some ⟨"]", 6⟩⟩ [application]) := by cbv
    cases hf.symm.trans hline
    have hinner : application.Misapplies s.surroundings 1 {} x := .here rfl rfl rfl
    have hnone : (Run.all (([] : List Form).map fun c => c.run s.surroundings 1) {}).outcome = .ok [] := rfl
    have hchildren : [application] = [] ++ application :: [] := rfl
    obtain ⟨-, -, hback⟩ := hall x (.inside rfl hchildren hnone hinner)
    exact hback (by simp [x, Form.normal, normalMembers, Form.parts, partsOfMembers]) 1 (by decide)

end TinyLisp

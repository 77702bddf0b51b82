import TinyLisp.Proofs.Children
import TinyLisp.Proofs.Grammar

/-!
# Properties that go through a form

A property goes through a form when all parts of the form have it. A form that was read has what its atoms have, so it is enough to
look at tokens one by one (`throughout_of_readText`).
-/

namespace TinyLisp

/-- Whether all parts of a form have a property. -/
def Form.Throughout (P : Form → Prop) (f : Form) : Prop := ∀ g ∈ f.parts, P g

variable {P Q : Form → Prop}

/-- A property goes through a form exactly when the form has it, its keys have it, and it goes through its children. -/
theorem Form.throughout_iff {f : Form} :
    f.Throughout P ↔ P f ∧ (∀ k ∈ f.keys, P k.toForm) ∧ ∀ c ∈ f.children, c.Throughout P := Form.forall_parts_iff

/-- A form has what goes through it. -/
theorem Form.Throughout.self {f : Form} (h : f.Throughout P) : P f := h f (mem_parts_self f)

/-- What follows from a property goes through a form together with it. -/
theorem Form.Throughout.imp {f : Form} (h : f.Throughout P) (hPQ : ∀ g, P g → Q g) : f.Throughout Q := fun g hg => hPQ g (h g hg)

/-- A property goes through a form without parts other than itself when the form has it. -/
theorem Form.throughout_of_parts {f : Form} (hparts : f.parts = [f]) (h : P f) : f.Throughout P := by
  rw [Form.Throughout, hparts]
  exact List.forall_mem_singleton.mpr h

/-- What goes through a form goes through each part of it. -/
theorem Form.Throughout.part {f g : Form} (h : f.Throughout P) (hg : g ∈ f.parts) : g.Throughout P := by
  induction f using Form.induction_children generalizing g with
  | h f ih =>
    obtain ⟨-, hkeys, hchildren⟩ := Form.throughout_iff.mp h
    have hall : ∀ g ∈ f.parts, g.Throughout P := by
      refine Form.forall_parts_iff.mpr ⟨h, fun k hk => ?_, fun c hc g hg => ih c hc (hchildren c hc) hg⟩
      exact Form.throughout_of_parts (by cases k <;> rfl) (hkeys k hk)
    exact hall g hg

/-- An atom has no part but itself. -/
theorem Atom.parts {t : Token} {f : Form} (h : Atom t f) : f.parts = [f] := by cases h <;> rfl

/-- What collections have between their delimiters, and the atoms of the tokens, goes through a form that the tokens derive. -/
theorem Derives.throughout_of_delimiters {ts : List Token} {f : Form} (h : Derives ts f)
    (hseq : ∀ kind o c members, o.chars = [(Shape.seq kind).opening] → c.chars = [(Shape.seq kind).closing] →
      P (.seq kind ⟨some o, some c⟩ members))
    (hmap : ∀ o c pairs, o.chars = [Shape.map.opening] → c.chars = [Shape.map.closing] → P (.map ⟨some o, some c⟩ pairs))
    (hatom : ∀ t ∈ ts, ∀ g, Atom t g → P g) : f.Throughout P := by
  induction h with
  | @atom t f h => exact Form.throughout_of_parts h.parts (hatom t List.mem_cons_self f h)
  | @seq kind o c phrases ho hc hm ih =>
    have hmem : ∀ p ∈ phrases, p.1 ⊆ o :: (phrases.flatMap (·.1) ++ [c]) := fun p hp t ht =>
      List.mem_cons_of_mem _ (List.mem_append_left _ (List.mem_flatMap.mpr ⟨p, hp, ht⟩))
    refine Form.throughout_iff.mpr ⟨hseq _ _ _ _ ho hc, nofun, List.forall_mem_map.mpr fun p hp => ?_⟩
    exact ih p hp fun t ht => hatom t (hmem p hp ht)
  | @map o c phrases ho hc hk hv ihk ihv =>
    have hmem : ∀ p ∈ phrases, p.tokens ⊆ o :: (phrases.flatMap PairPhrase.tokens ++ [c]) := fun p hp t ht =>
      List.mem_cons_of_mem _ (List.mem_append_left _ (List.mem_flatMap.mpr ⟨p, hp, ht⟩))
    refine Form.throughout_iff.mpr ⟨hmap _ _ _ ho hc, ?_, ?_⟩
    · refine List.forall_mem_map.mpr (List.forall_mem_map.mpr fun p hp => (ihk p hp fun t ht => ?_).self)
      exact hatom t (hmem p hp (List.mem_append_left _ ht))
    · refine List.forall_mem_map.mpr (List.forall_mem_map.mpr fun p hp => ihv p hp fun t ht => ?_)
      exact hatom t (hmem p hp (List.mem_append_right _ ht))

/-- What all collections have, and the atoms of the tokens, goes through a form that the tokens derive. -/
theorem Derives.throughout {ts : List Token} {f : Form} (h : Derives ts f) (hcollection : ∀ g : Form, g.isCollection = true → P g)
    (hatom : ∀ t ∈ ts, ∀ g, Atom t g → P g) : f.Throughout P :=
  h.throughout_of_delimiters (fun _ _ _ _ _ _ => hcollection _ rfl) (fun _ _ _ _ _ => hcollection _ rfl) hatom

/-- What all collections have, and the atoms of the tokens of a text, goes through the form that is read from the text. -/
theorem throughout_of_readText {limit : Nat} {source : String} {f : Form} (h : readText limit source = .ok f)
    (hcollection : ∀ g : Form, g.isCollection = true → P g)
    (hatom : ∀ t ∈ content (tokenize source), ∀ g, Atom t g → P g) : f.Throughout P :=
  (readTokens_eq_ok_iff.mp h).1.throughout hcollection hatom

end TinyLisp

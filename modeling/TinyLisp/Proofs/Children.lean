import TinyLisp.Proofs.Parts

/-!
# What is evaluated of a form

The children of a form are the forms that are evaluated in order to evaluate it: the members of a sequence, and the values of a
map in the order of their addition, replaced ones included. `Form.fold` computes something of a form from what it computes of the
children. `Form.fold_eq` is its one equation, and `Form.induction_children` is the induction that goes with it.

`Form.height` counts the levels of depth that evaluating a form takes.
-/

namespace TinyLisp

variable {α : Type}

/-- The forms that are evaluated in order to evaluate a form. -/
def Form.children : Form → List Form
  | .seq _ _ members => members
  | .map _ pairs => pairs.map Prod.snd
  | _ => []

/-- The keys of a map. No other form has any. -/
def Form.keys : Form → List Key
  | .map _ pairs => pairs.map Prod.fst
  | _ => []

/-- What holds of a form whenever it holds of its children holds of every form. -/
theorem Form.induction_children {P : Form → Prop} (h : ∀ f : Form, (∀ c ∈ f.children, P c) → P f) (f : Form) : P f := by
  induction f with
  | int | symbol | str | keyword | bool | builtin => exact h _ nofun
  | seq kind delims members ih => exact h _ ih
  | map delims pairs ih => exact h _ (List.forall_mem_map.mpr ih)

/-- What holds of all parts of a form holds of the form, of its keys, and of all parts of its children. -/
theorem Form.forall_parts_iff {P : Form → Prop} {f : Form} :
    (∀ g ∈ f.parts, P g) ↔ P f ∧ (∀ k ∈ f.keys, P k.toForm) ∧ ∀ c ∈ f.children, ∀ g ∈ c.parts, P g := by
  cases f with
  | int | symbol | str | keyword | bool | builtin => simp [parts, keys, children]
  | seq kind delims members =>
    simp only [parts, keys, children, List.forall_mem_cons, List.not_mem_nil, false_imp_iff, implies_true, true_and,
      mem_partsOfMembers]
    refine and_congr_right fun _ => ⟨fun h m hm g hg => h g ⟨m, hm, hg⟩, ?_⟩
    rintro h g ⟨m, hm, hg⟩
    exact h m hm g hg
  | map delims pairs =>
    simp only [parts, keys, children, List.forall_mem_cons, List.forall_mem_map, mem_partsOfPairs]
    refine and_congr_right fun _ => ⟨fun h => ⟨fun p hp => ?_, fun p hp g hg => ?_⟩, ?_⟩
    · exact h _ ⟨p, hp, .inl rfl⟩
    · exact h g ⟨p, hp, .inr hg⟩
    · rintro ⟨hkeys, hvalues⟩ g ⟨p, hp, rfl | hg⟩
      · exact hkeys p hp
      · exact hvalues p hp g hg

/-- A collection is nested one deeper than its children. -/
theorem Form.nesting_le_succ_iff {f : Form} (h : f.isCollection = true) {n : Nat} :
    f.nesting ≤ n + 1 ↔ ∀ c ∈ f.children, c.nesting ≤ n := by
  cases f with
  | seq kind delims members => rw [nesting, Nat.add_le_add_iff_right, nestingOfMembers_le_iff, children]
  | map delims pairs => rw [nesting, Nat.add_le_add_iff_right, nestingOfValues_le_iff, children, List.forall_mem_map]
  | _ => cases h

/-- A child is nested less deeply than the form. -/
theorem Form.nesting_lt_of_mem_children {f c : Form} (h : c ∈ f.children) : c.nesting < f.nesting := by
  cases f with
  | seq kind delims members => exact Nat.lt_succ_of_le (nesting_le_of_mem_members h)
  | map delims pairs =>
    obtain ⟨p, hp, rfl⟩ := List.mem_map.mp h
    exact Nat.lt_succ_of_le (nesting_le_of_mem_pairs hp)
  | _ => cases h

mutual

/-- Computes something of a form from what is computed of its children. -/
def Form.fold (node : Form → List α → α) : Form → α
  | .seq kind delims members => node (.seq kind delims members) (foldMembers node members)
  | .map delims pairs => node (.map delims pairs) (foldValues node pairs)
  | f => node f []

/-- What is computed of the members of a sequence. -/
def foldMembers (node : Form → List α → α) : List Form → List α
  | [] => []
  | m :: ms => m.fold node :: foldMembers node ms

/-- What is computed of the values of a map. -/
def foldValues (node : Form → List α → α) : List (Key × Form) → List α
  | [] => []
  | (_, v) :: rest => v.fold node :: foldValues node rest

end

theorem foldMembers_eq_map (node : Form → List α → α) (ms : List Form) : foldMembers node ms = ms.map (Form.fold node) := by
  induction ms <;> simp_all [foldMembers]

theorem foldValues_eq_map (node : Form → List α → α) (ps : List (Key × Form)) :
    foldValues node ps = (ps.map Prod.snd).map (Form.fold node) := by
  induction ps <;> simp_all [foldValues]

/-- What is computed of a form comes from what is computed of its children. -/
theorem Form.fold_eq (node : Form → List α → α) (f : Form) : f.fold node = node f (f.children.map (Form.fold node)) := by
  cases f with
  | int | symbol | str | keyword | bool | builtin => rw [Form.fold] <;> first | rfl | nofun
  | seq kind delims members => rw [Form.fold, foldMembers_eq_map]; rfl
  | map delims pairs => rw [Form.fold, foldValues_eq_map]; rfl

/-- The number of levels of depth that evaluating a form takes: one for the form, and as many more as the highest child takes. -/
def Form.height : Form → Nat := Form.fold fun _ heights => heights.foldr max 0 + 1

theorem Form.height_eq (f : Form) : f.height = (f.children.map Form.height).foldr max 0 + 1 := Form.fold_eq _ f

/-- A form stays within a limit exactly when there is a level for it and its children stay within the limit one level deeper. -/
theorem Form.add_height_le_iff {f : Form} {depth limit : Nat} :
    depth + f.height ≤ limit ↔ depth < limit ∧ ∀ c ∈ f.children, depth + 1 + c.height ≤ limit := by
  rw [Form.height_eq]
  induction f.children with
  | nil =>
    simp only [List.map_nil, List.foldr_nil, Nat.zero_add, List.not_mem_nil, false_imp_iff, implies_true, and_true]
    exact Nat.succ_le_iff
  | cons c cs ih =>
    rw [List.map_cons, List.foldr_cons, List.forall_mem_cons, and_left_comm, ← ih]
    omega

/-- A child takes fewer levels than the form. -/
theorem Form.height_lt_of_mem_children {f c : Form} (h : c ∈ f.children) : c.height < f.height := by
  have hc := (Form.add_height_le_iff.mp (Nat.le_refl (0 + f.height))).2 c h
  omega

/-- A form takes at most one level more than its collections are nested. -/
theorem Form.height_le_nesting_add_one (f : Form) : f.height ≤ f.nesting + 1 := by
  induction f using Form.induction_children with
  | h f ih =>
    rw [← Nat.zero_add f.height]
    refine Form.add_height_le_iff.mpr ⟨Nat.succ_pos _, fun c hc => ?_⟩
    have hdeep : c.nesting < f.nesting := Form.nesting_lt_of_mem_children hc
    have := ih c hc
    omega

example : (Form.vector [.vector [], .vector [.bool true]]).height = 3 := by decide

end TinyLisp

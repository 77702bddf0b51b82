import Mathlib.Data.List.Perm.Subperm
import TinyLisp.Form.Equality
import TinyLisp.Proofs.Children
import TinyLisp.Proofs.Entries

/-!
# What sameness compares

A form has a label, which is all of it but tokens and the forms that it holds, and it holds other forms in places: a sequence by
position, a map by the text of a key. Forms are the same exactly when they have one label and the same forms stand in the same
places (`Form.same_iff`). For maps that takes some counting: only the keys of the first map are looked up in the second, and that
the second has no others follows from how many there are (`Entries.length_entries_eq_iff`).

`Form.view` goes to a place, to a place in there and so on, and tells the label that it finds. Forms are the same exactly when they
look alike along every such path (`Form.same_iff_view`), so sameness is an equivalence whatever the forms hold.
-/

namespace TinyLisp

/-! ## Counting keys -/

namespace Entries

variable {α β : Type}

/-- A key with a value is one of the keys. -/
theorem mem_indices_iff {ps : List (Key × α)} {index : String} : index ∈ indices ps ↔ (get? ps index).isSome = true := by
  rw [isSome_get?, binds_iff_mem_indices]

/-- The indices of the entries are those of the keys. -/
theorem mem_indices_entries {ps : List (Key × α)} {index : String} : index ∈ indices (entries ps) ↔ index ∈ indices ps := by
  rw [indices_entries, List.mem_eraseDups]

/-- Where every index of the first is one of the second, there are equally many entries exactly when every index of the second is
one of the first. -/
theorem length_entries_eq_iff {as : List (Key × α)} {bs : List (Key × β)} (h : indices as ⊆ indices bs) :
    (entries as).length = (entries bs).length ↔ indices bs ⊆ indices as := by
  have hlength : (entries as).length = (entries bs).length ↔
      (indices (entries as)).length = (indices (entries bs)).length := by simp [indices]
  rw [hlength]
  constructor
  · intro hlen index hi
    have hsub : (indices (entries as)).Subperm (indices (entries bs)) :=
      List.subperm_of_subset (nodup_entries as) fun _ hi => mem_indices_entries.mpr (h (mem_indices_entries.mp hi))
    have hperm := hsub.perm_of_length_le (Nat.le_of_eq hlen.symm)
    exact mem_indices_entries.mp (hperm.mem_iff.mpr (mem_indices_entries.mpr hi))
  · intro hback
    refine ((List.perm_ext_iff_of_nodup (nodup_entries as) (nodup_entries bs)).mpr fun index => ?_).length_eq
    rw [mem_indices_entries, mem_indices_entries]
    exact ⟨fun hi => h hi, fun hi => hback hi⟩

end Entries

/-! ## Places -/

/-- Members are the same one by one exactly when the same forms, or none, are in every position. -/
theorem sameMembers_iff {as bs : List Form} :
    sameMembers as bs = true ↔ ∀ i : Nat, Option.Rel (fun a b : Form => a.same b = true) as[i]? bs[i]? := by
  induction as generalizing bs with
  | nil =>
    cases bs with
    | nil => simp [sameMembers]
    | cons b bs => exact iff_of_false Bool.false_ne_true fun h => nomatch h 0
  | cons a as ih =>
    cases bs with
    | nil => exact iff_of_false Bool.false_ne_true fun h => nomatch h 0
    | cons b bs =>
      rw [sameMembers, Bool.and_eq_true, ih, ← Option.rel_some_some (r := fun a b : Form => a.same b = true)]
      exact Nat.and_forall_add_one (p := fun i => Option.Rel _ (a :: as)[i]? (b :: bs)[i]?)

/-- One key of the first list has the same value in the second one, unless a later value hides it. -/
theorem sameValues_cons (k : Key) (a : Form) (as bs : List (Key × Form)) :
    sameValues ((k, a) :: as) bs =
      ((Entries.binds as k.index || (Entries.get? bs k.index).any a.same) && sameValues as bs) := by
  rw [sameValues]
  cases Entries.get? bs k.index <;> rfl

/-- Every key of the first list has the same value in the second one exactly when whatever is found in the first is found in
the second. -/
theorem sameValues_iff {as bs : List (Key × Form)} :
    sameValues as bs = true ↔
      ∀ index a, Entries.get? as index = some a → ∃ b, Entries.get? bs index = some b ∧ a.same b = true := by
  induction as with
  | nil => simp [sameValues, Entries.get?]
  | cons p as ih =>
    obtain ⟨k, a⟩ := p
    rw [sameValues_cons, Bool.and_eq_true, ih]
    cases hk : Entries.get? as k.index with
    | some a' =>
      have hb : Entries.binds as k.index = true := by rw [← Entries.isSome_get?, hk, Option.isSome_some]
      have hget : ∀ index, Entries.get? ((k, a) :: as) index = Entries.get? as index := by
        intro index
        by_cases hi : k.index = index
        · simp [Entries.get?, ← hi, hk]
        · simp [Entries.get?, hi]
      simp [hb, hget]
    | none =>
      have hb : Entries.binds as k.index = false := by rw [← Entries.isSome_get?, hk, Option.isSome_none]
      rw [hb, Bool.false_or, Option.any_eq_true]
      constructor
      · rintro ⟨ha, has⟩ index a' ha'
        by_cases hi : k.index = index
        · subst hi
          rw [Entries.get?, hk, Option.none_or, if_pos rfl, Option.some.injEq] at ha'
          exact ha' ▸ ha
        · rw [Entries.get?, if_neg hi, Option.or_none] at ha'
          exact has index a' ha'
      · intro h
        refine ⟨h k.index a (by simp [Entries.get?, hk]), fun index a' ha' => h index a' ?_⟩
        rw [Entries.get?, ha', Option.some_or]

/-- Maps are the same exactly when the same values, or none, are under every index. -/
theorem same_map_iff {d e : Delimiters} {as bs : List (Key × Form)} :
    (Form.map d as).same (.map e bs) = true ↔
      ∀ index, Option.Rel (fun a b : Form => a.same b = true) (Entries.get? as index) (Entries.get? bs index) := by
  rw [Form.same, Bool.and_eq_true, beq_iff_eq, sameValues_iff]
  constructor
  · rintro ⟨hlen, hfound⟩ index
    have hsub : Entries.indices as ⊆ Entries.indices bs := by
      intro i hi
      obtain ⟨a, ha⟩ := Option.isSome_iff_exists.mp (Entries.mem_indices_iff.mp hi)
      obtain ⟨b, hb, -⟩ := hfound i a ha
      exact Entries.mem_indices_iff.mpr (Option.isSome_of_eq_some hb)
    cases ha : Entries.get? as index with
    | none =>
      have hb : index ∉ Entries.indices bs := fun hi =>
        Entries.get?_eq_none_iff.mp ha ((Entries.length_entries_eq_iff hsub).mp hlen hi)
      rw [Entries.get?_eq_none_iff.mpr hb]
      exact .none
    | some a =>
      obtain ⟨b, hb, hab⟩ := hfound index a ha
      rw [hb]
      exact .some hab
  · intro h
    have hmem : ∀ i, i ∈ Entries.indices as ↔ i ∈ Entries.indices bs := by
      intro i
      rw [Entries.mem_indices_iff, Entries.mem_indices_iff]
      match Entries.get? as i, Entries.get? bs i, h i with
      | none, none, .none => rfl
      | some _, some _, .some _ => rfl
    refine ⟨(Entries.length_entries_eq_iff fun i => (hmem i).mp).mpr fun i => (hmem i).mpr, fun index a ha => ?_⟩
    have hrel := h index
    rw [ha] at hrel
    cases hb : Entries.get? bs index with
    | none => simp [hb] at hrel
    | some b =>
      rw [hb, Option.rel_some_some] at hrel
      exact ⟨b, rfl, hrel⟩

/-- A place in a collection: a position in a sequence, or the text that a map finds a key by. -/
inductive Place where
  | position (i : Nat)
  | key (index : String)

/-- What a form is but for tokens and the forms that it holds. -/
inductive Label where
  | int (value : Int64)
  | symbol (name : String)
  | str (value : String)
  | keyword (keyword : Keyword)
  | bool (value : Bool)
  | seq (kind : SeqKind)
  | map
  | builtin (name : String) (object : FunctionObject)

namespace Form

/-- The label of a form. -/
def label : Form → Label
  | .int value _ => .int value
  | .symbol name _ => .symbol name
  | .str value _ => .str value
  | .keyword k _ => .keyword k
  | .bool value => .bool value
  | .seq kind _ _ => .seq kind
  | .map _ _ => .map
  | .builtin b => .builtin b.name b.object

/-- The form in a place of a collection. -/
def at? : Form → Place → Option Form
  | .seq _ _ members, .position i => members[i]?
  | .map _ pairs, .key index => Entries.get? pairs index
  | _, _ => none

/-- What is in a place is a child. -/
theorem mem_children_of_at? {f c : Form} {place : Place} (h : f.at? place = some c) : c ∈ f.children := by
  cases f with
  | seq kind delims members =>
    cases place with
    | position i => exact List.mem_of_getElem? h
    | key => cases h
  | map delims pairs =>
    cases place with
    | position i => cases h
    | key index =>
      obtain ⟨k, hk, -⟩ := Entries.mem_of_get? h
      exact List.mem_map_of_mem (f := Prod.snd) hk
  | _ => cases h

/-- Forms are the same exactly when they have one label and the same forms, or none, are in every place. -/
theorem same_iff {f g : Form} :
    f.same g = true ↔
      f.label = g.label ∧ ∀ place, Option.Rel (fun a b : Form => a.same b = true) (f.at? place) (g.at? place) := by
  cases f with
  | seq j d as =>
    cases g with
    | seq k e bs =>
      rw [same, Bool.and_eq_true, beq_iff_eq, sameMembers_iff, label, label, Label.seq.injEq]
      refine and_congr_right fun _ => ⟨fun h place => ?_, fun h i => h (.position i)⟩
      cases place with
      | position i => exact h i
      | key => exact .none
    | _ => simp [same, label]
  | map d as =>
    cases g with
    | map e bs =>
      rw [same_map_iff, label, label, eq_self, true_and]
      refine ⟨fun h place => ?_, fun h index => h (.key index)⟩
      cases place with
      | position => exact .none
      | key index => exact h index
    | _ => simp [same, label]
  | builtin b => cases g <;> simp [same, label, at?, Builtin.same_iff]
  | _ => cases g <;> simp [same, label, at?]

/-- The label that is found from a form along places, each in what is in the one before. -/
def view (f : Form) : List Place → Option Label
  | [] => some f.label
  | place :: path => (f.at? place).bind fun c => c.view path

/-- Two forms, or none, look alike along every path exactly when they are related, where being related is looking alike. -/
theorem rel_iff_view {R : Form → Form → Prop} {o o' : Option Form}
    (h : ∀ a, o = some a → ∀ b, R a b ↔ a.view = b.view) :
    Option.Rel R o o' ↔ ∀ path, (o.bind fun c => c.view path) = o'.bind fun c => c.view path := by
  cases o with
  | none =>
    cases o' with
    | none => simp
    | some b => exact iff_of_false nofun fun hview => nomatch hview []
  | some a =>
    cases o' with
    | none => exact iff_of_false nofun fun hview => nomatch hview []
    | some b => rw [Option.rel_some_some, h a rfl b, funext_iff]; rfl

/-- Forms are the same exactly when they look alike along every path. -/
theorem same_iff_view {f g : Form} : f.same g = true ↔ f.view = g.view := by
  induction f using induction_children generalizing g with
  | h f ih =>
    have hplaces : ∀ place, Option.Rel (fun a b : Form => a.same b = true) (f.at? place) (g.at? place) ↔
        ∀ path, f.view (place :: path) = g.view (place :: path) :=
      fun place => rel_iff_view fun a ha b => ih a (mem_children_of_at? ha)
    rw [same_iff, funext_iff]
    constructor
    · rintro ⟨hlabel, h⟩ path
      cases path with
      | nil => exact congrArg some hlabel
      | cons place path => exact (hplaces place).mp (h place) path
    · intro h
      exact ⟨Option.some.inj (h []), fun place => (hplaces place).mpr fun path => h (place :: path)⟩

end Form

instance : EquivBEq Form where
  rfl := Form.same_iff_view.mpr rfl
  symm h := Form.same_iff_view.mpr (Form.same_iff_view.mp h).symm
  trans h h' := Form.same_iff_view.mpr ((Form.same_iff_view.mp h).trans (Form.same_iff_view.mp h'))

end TinyLisp

import TinyLisp.Proofs.Coherence

/-!
# Mapping over collections

A function is mapped over a collection by calling it on the members of a sequence, or on the values of a map, replaced ones
included. The function may change a state of its own and may fail. `Serves` says what calls without a failure give and where they
lead; a failure is a call after such calls. `recorded` makes a function note what it is called on.

`MapsOver` says of an operation that it calls any function on the given forms in order, once each, up to the first failure, and
makes its result of the forms that the calls give. Replacing the values of a map is such an operation, and its result is the map
that is built anew of the keys and those forms, in the old delimiters (`mapping_agrees_with_rebuilding`), although the index is
derived by other code than the one that builds maps.
-/

namespace TinyLisp

/-! ## Calls in order -/

section

variable {ε σ : Type}

/-- Calls of a function on forms, one after the other, lead from a state to a state, and each of them gives the form in the place of
the one it is called on. -/
inductive Serves (act : Form → ExceptT ε (StateM σ) Form) : σ → List Form → List Form → σ → Prop where
  | done (s : σ) : Serves act s [] [] s
  | call {s s' s'' : σ} {f g : Form} {fs gs : List Form} :
      act f s = (.ok g, s') → Serves act s' fs gs s'' → Serves act s (f :: fs) (g :: gs) s''

/-- The function that notes the form it is called on and then does what the given function does. -/
def recorded (act : Form → ExceptT ε (StateM σ) Form) : Form → ExceptT ε (StateM (σ × List Form)) Form := fun f s =>
  ((act f s.1).1, (act f s.1).2, s.2 ++ [f])

variable {act : Form → ExceptT ε (StateM σ) Form} {s s' s'' : σ} {fs gs : List Form}

/-- Calls on any forms either all give one, or there is a first call that fails. -/
theorem serves_or_fails (act : Form → ExceptT ε (StateM σ) Form) (fs : List Form) (s : σ) :
    (∃ gs s', Serves act s fs gs s') ∨
      ∃ before f after gs s' e s'', fs = before ++ f :: after ∧ Serves act s before gs s' ∧ act f s' = (.error e, s'') := by
  induction fs generalizing s with
  | nil => exact .inl ⟨[], s, .done s⟩
  | cons f fs ih =>
    rcases hf : act f s with ⟨e | g, s'⟩
    · exact .inr ⟨[], f, fs, [], s, e, s', rfl, .done s, hf⟩
    · rcases ih s' with ⟨gs, s'', hs⟩ | ⟨before, f', after, gs, s'', e, s''', rfl, hs, hf'⟩
      · exact .inl ⟨g :: gs, s'', .call hf hs⟩
      · exact .inr ⟨f :: before, f', after, g :: gs, s'', e, s''', rfl, .call hf hs, hf'⟩

/-- Calls that are noted lead where they lead otherwise, and the notes get the forms in order. -/
theorem Serves.noted (h : Serves act s fs gs s') (notes : List Form) :
    Serves (recorded act) (s, notes) fs gs (s', notes ++ fs) := by
  induction h generalizing notes with
  | done s =>
    rw [List.append_nil]
    exact .done (s, notes)
  | @call s s' s'' f g fs gs hf _ ih =>
    have hnoted : recorded act f (s, notes) = (.ok g, s', notes ++ [f]) := by simp only [recorded, hf]
    have hrest := ih (notes ++ [f])
    rw [List.append_assoc, List.singleton_append] at hrest
    exact .call hnoted hrest

/-- Where every call gives a form, going through all forms gives these. -/
theorem Serves.mapM (h : Serves act s fs gs s') : fs.mapM act s = (.ok gs, s') := by
  induction h with
  | done s => rfl
  | call hf _ ih =>
    rw [List.mapM_cons, Action.bind_ok hf, Action.bind_ok ih]
    rfl

/-- Where a call fails after those that give a form, going through the forms fails as it does. -/
theorem Serves.mapM_of_fault (h : Serves act s fs gs s') {f : Form} {e : ε} (hf : act f s' = (.error e, s''))
    (after : List Form) : (fs ++ f :: after).mapM act s = (.error e, s'') := by
  induction h with
  | done s =>
    rw [List.nil_append, List.mapM_cons]
    exact Action.bind_error hf _
  | call hg _ ih =>
    rw [List.cons_append, List.mapM_cons, Action.bind_ok hg]
    exact Action.bind_error (ih hf) _

end

/-! ## Operations that call a function in order -/

/-- Whether an operation calls whatever function it is given on the forms in order, once each and up to the first failure. Where
all calls give a form, it makes its result of those as it should; where one fails, it fails as that one. -/
structure MapsOver {β : Type} (forms : List Form) (makes : List Form → β → Prop)
    (run : ∀ {ε σ : Type}, (Form → ExceptT ε (StateM σ) Form) → ExceptT ε (StateM σ) β) : Prop where
  /-- All calls are made, and their forms make the result. -/
  served : ∀ {ε σ : Type} (act : Form → ExceptT ε (StateM σ) Form) (s : σ) (notes gs : List Form) (s' : σ),
    Serves act s forms gs s' →
      ∃ b, makes gs b ∧ run act s = (.ok b, s') ∧ run (recorded act) (s, notes) = (.ok b, s', notes ++ forms)
  /-- The calls up to the one that fails are made, and no other. -/
  failed : ∀ {ε σ : Type} (act : Form → ExceptT ε (StateM σ) Form) (s : σ) (notes before : List Form) (f : Form)
    (after gs : List Form) (s' : σ) (e : ε) (s'' : σ),
    forms = before ++ f :: after → Serves act s before gs s' → act f s' = (.error e, s'') →
      run act s = (.error e, s'') ∧ run (recorded act) (s, notes) = (.error e, s'', notes ++ before ++ [f])

namespace MapsOver

variable {β γ : Type} {forms : List Form}

/-- Going through the forms is such an operation, and its result is what the calls give. -/
theorem mapM (forms : List Form) : MapsOver forms (fun gs b => b = gs) fun act => forms.mapM act where
  served act s notes gs s' h := ⟨gs, rfl, h.mapM, (h.noted notes).mapM⟩
  failed act s notes before f after gs s' e s'' hforms h hf := by
    subst hforms
    have hnoted : recorded act f (s', notes ++ before) = (.error e, s'', notes ++ before ++ [f]) := by
      simp only [recorded, hf]
    exact ⟨h.mapM_of_fault hf after, (h.noted notes).mapM_of_fault hnoted after⟩

/-- A value that is changed afterwards is the changed value. -/
theorem map_ok {ε σ : Type} {act : ExceptT ε (StateM σ) β} {s s' : σ} {b : β} (h : act s = (.ok b, s')) (g : β → γ) :
    (g <$> act) s = (.ok (g b), s') := by
  rw [map_eq_pure_bind, Action.bind_ok h]
  rfl

/-- A failure is not changed afterwards. -/
theorem map_error {ε σ : Type} {act : ExceptT ε (StateM σ) β} {s s' : σ} {e : ε} (h : act s = (.error e, s')) (g : β → γ) :
    (g <$> act) s = (.error e, s') := by
  rw [map_eq_pure_bind, Action.bind_error h]

/-- An operation whose result is changed afterwards makes the changed result. -/
theorem map {makes : List Form → β → Prop}
    {run : ∀ {ε σ : Type}, (Form → ExceptT ε (StateM σ) Form) → ExceptT ε (StateM σ) β} (h : MapsOver forms makes run)
    {makes' : List Form → γ → Prop} (g : β → γ) (hg : ∀ gs b, makes gs b → makes' gs (g b)) :
    MapsOver forms makes' fun act => g <$> run act where
  served act s notes gs s' hs := by
    obtain ⟨b, hb, hrun, hnoted⟩ := h.served act s notes gs s' hs
    exact ⟨g b, hg gs b hb, map_ok hrun g, map_ok hnoted g⟩
  failed act s notes before f after gs s' e s'' hforms hs hf := by
    obtain ⟨hrun, hnoted⟩ := h.failed act s notes before f after gs s' e s'' hforms hs hf
    exact ⟨map_error hrun g, map_error hnoted g⟩

end MapsOver

/-! ## Collections -/

/-- The keys and values replaced from first to last are the keys with the forms that the values are replaced by. -/
theorem Form.traverseValues_eq_mapM {M : Type → Type} [Monad M] [LawfulMonad M] (act : Form → M Form)
    (pairs : List (Key × Form)) :
    Form.traverseValues act pairs = (pairs.map Prod.fst).zip <$> (pairs.map Prod.snd).mapM act := by
  induction pairs with
  | nil => simp [Form.traverseValues]
  | cons p rest ih => simp [Form.traverseValues, ih]

namespace IndexedMap

/-- The values among the members of a map. -/
def valuesOf (members : List Form) : List Form := (chunks members).map Prod.snd

/-- The members of a map with other forms in the places of its values. -/
def withValues (members values : List Form) : List Form :=
  (((chunks members).map Prod.fst).zip values).flatMap fun c => [c.1, c.2]

theorem valuesOf_alternate (pairs : List (Key × Form)) : valuesOf (alternate pairs) = pairs.map Prod.snd := by
  rw [valuesOf, chunks_alternate, List.map_map]
  rfl

theorem withValues_alternate (pairs : List (Key × Form)) (values : List Form) :
    withValues (alternate pairs) values = alternate ((pairs.map Prod.fst).zip values) := by
  have hkeys : (chunks (alternate pairs)).map Prod.fst = (pairs.map Prod.fst).map Key.toForm := by
    rw [chunks_alternate, List.map_map, List.map_map]
    rfl
  rw [withValues, hkeys, List.zip_map_left, List.flatMap_map]
  rfl

end IndexedMap

open IndexedMap

/-- Replacing values is calling a function on them in order, and the result has the forms that the calls give under the old keys. -/
theorem mapsOver_traverseValues (pairs : List (Key × Form)) :
    MapsOver (pairs.map Prod.snd) (fun gs b => b = (pairs.map Prod.fst).zip gs) fun act => Form.traverseValues act pairs := by
  simp only [Form.traverseValues_eq_mapM]
  refine (MapsOver.mapM (pairs.map Prod.snd)).map _ ?_
  rintro gs b rfl
  rfl

/-- Mapping over a collection agrees with building it anew. A function that may keep a state and fail is called on the values of a
map in the order of the members, once on each, replaced ones included, up to the first failure, which is then the outcome. If there
is none, the result has the members and the index of the map that is built of the keys and the forms given by the calls, and the
delimiters of the old map. The same holds of the maps in forms. A function is mapped over all members of a sequence in this way, too.
One of the two cases there always is. -/
theorem mapping_agrees_with_rebuilding :
    (∀ m, Made m →
        MapsOver (valuesOf m.members)
          (fun gs b => ∃ n, ofMembers (withValues m.members gs) = .ok n ∧ b = { n with delims := m.delims })
          fun act => m.mapValues act) ∧
      (∀ delims pairs,
        MapsOver (pairs.map Prod.snd)
          (fun gs b => ∃ pairs', Form.ofAlternating (withValues (alternate pairs) gs) = .ok (.map {} pairs') ∧
            b = .map delims pairs')
          fun act => (Form.map delims pairs).traverse act) ∧
      (∀ kind delims members,
        MapsOver members (fun gs b => b = .seq kind delims gs) fun act => (Form.seq kind delims members).traverse act) ∧
      ∀ (ε σ : Type) (act : Form → ExceptT ε (StateM σ) Form) (fs : List Form) (s : σ),
        (∃ gs s', Serves act s fs gs s') ∨
          ∃ before f after gs s' e s'',
            fs = before ++ f :: after ∧ Serves act s before gs s' ∧ act f s' = (.error e, s'') := by
  refine ⟨fun m hm => ?_, fun delims pairs => ?_, fun kind delims members => ?_, fun ε σ => serves_or_fails⟩
  · obtain ⟨delims, pairs, rfl⟩ := hm.exists_ofPairs
    simp only [mapValues_ofPairs]
    rw [ofPairs, valuesOf_alternate]
    refine (mapsOver_traverseValues pairs).map _ ?_
    rintro gs b rfl
    refine ⟨ofPairs {} ((pairs.map Prod.fst).zip gs), ?_, rfl⟩
    rw [withValues_alternate, ofMembers_eq, pairUp_alternate]
    rfl
  · simp only [Form.traverse, ← map_eq_pure_bind]
    refine (mapsOver_traverseValues pairs).map _ ?_
    rintro gs b rfl
    refine ⟨_, ?_, rfl⟩
    rw [withValues_alternate, Form.ofAlternating, pairUp_alternate]
    rfl
  · simp only [Form.traverse, ← map_eq_pure_bind]
    refine (MapsOver.mapM members).map _ ?_
    rintro gs b rfl
    rfl

/-- Where a key comes again, the function is called on the value that is replaced, too, and the latest result is bound to the key. A
function that fails at its third call fails at the last value. -/
theorem mapping_agrees_with_rebuilding_repeated_key :
    let a : Form := .keyword ⟨.shared, "a"⟩ none
    let members := [a, .bool true, .str "b" none, .bool true, a, .bool false]
    let countTo : Nat → Form → ExceptT String (StateM Nat) Form := fun bound _ n =>
      if n < bound then (.ok (.ofWord (Int64.ofNat n)), n + 1) else (.error "too many", n + 1)
    ∃ m, ofMembers members = .ok m ∧ Made m ∧
      (∃ b, m.mapValues (recorded (countTo 3)) (0, []) = (.ok b, 3, [.bool true, .bool true, .bool false]) ∧
        b.entries = [(a, .ofWord 2), (.str "b" none, .ofWord 1)]) ∧
      m.mapValues (recorded (countTo 2)) (0, []) = (.error "too many", 3, [.bool true, .bool true, .bool false]) := by
  intro a members countTo
  have hm : ofMembers members = .ok (ofPairs {} _) := ofMembers_eq members
  obtain ⟨served, failed⟩ := mapping_agrees_with_rebuilding.1 _ (.ofMembers hm)
  have hfirst : Serves (countTo 2) 0 [.bool true, .bool true] [.ofWord 0, .ofWord 1] 2 := .call rfl (.call rfl (.done 2))
  have hall : Serves (countTo 3) 0 [.bool true, .bool true, .bool false] [.ofWord 0, .ofWord 1, .ofWord 2] 3 :=
    .call rfl (.call rfl (.call rfl (.done 3)))
  obtain ⟨b, ⟨n, hn, rfl⟩, -, hnoted⟩ := served (countTo 3) 0 [] _ 3 hall
  obtain ⟨-, hfailed⟩ := failed (countTo 2) 0 [] [.bool true, .bool true] (.bool false) [] _ 2 "too many" 3 rfl
    hfirst rfl
  refine ⟨_, hm, .ofMembers hm, ⟨_, hnoted, ?_⟩, hfailed⟩
  rw [ofMembers_eq] at hn
  obtain rfl := Except.ok.inj hn
  rfl

end TinyLisp

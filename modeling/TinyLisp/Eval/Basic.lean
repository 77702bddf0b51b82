import TinyLisp.Eval.Machine

/-!
# Evaluation

A list that is not empty is an application: its members are evaluated from left to right, and the value of the first is
applied to the others. A symbol stands for its binding, a vector is evaluated member by member, a map value by value in the
order of addition, and every other form stands for itself. Evaluating a form takes one level of depth, whatever the form.
-/

namespace TinyLisp

variable {σ : Type}

/-- The value of a list from the values of its members: the first is applied to the others, and the empty list stands for
itself. -/
def applyMembers (host : Host σ) (delims : Delimiters) : List Form → Action σ Form
  | [] => pure (.seq .list delims [])
  | head :: args => Action.apply host head args

mutual

/-- The value of a form. -/
def Form.eval (host : Host σ) (settings : Settings) : Form → Action σ Form
  | .symbol name token => Action.within host settings (.symbol name token) (Action.lookup name)
  | .seq .list delims members =>
    Action.within host settings (.seq .list delims members) do
      let values ← evalMembers host settings members
      applyMembers host delims values
  | .seq .vector delims members =>
    Action.within host settings (.seq .vector delims members) do
      let values ← evalMembers host settings members
      pure (.seq .vector delims values)
  | .map delims pairs =>
    Action.within host settings (.map delims pairs) do
      let pairs ← evalValues host settings pairs
      pure (.map delims pairs)
  | f => Action.within host settings f (pure f)

/-- The values of forms, from left to right. -/
def evalMembers (host : Host σ) (settings : Settings) : List Form → Action σ (List Form)
  | [] => pure []
  | f :: fs => do
    let value ← f.eval host settings
    let values ← evalMembers host settings fs
    pure (value :: values)

/-- The keys of a map with the values of what stands under them, from left to right. -/
def evalValues (host : Host σ) (settings : Settings) : List (Key × Form) → Action σ (List (Key × Form))
  | [] => pure []
  | (k, f) :: rest => do
    let value ← f.eval host settings
    let rest ← evalValues host settings rest
    pure ((k, value) :: rest)

end

/-- The form with its parts evaluated, on the same level of depth and without applying a list to anything. -/
def Form.evalParts (host : Host σ) (settings : Settings) : Form → Action σ Form
  | .symbol name _ => Action.lookup name
  | .seq kind delims members => do
    let values ← evalMembers host settings members
    pure (.seq kind delims values)
  | .map delims pairs => do
    let pairs ← evalValues host settings pairs
    pure (.map delims pairs)
  | f => pure f

/-- The work of evaluating a form, inside of its level of depth. -/
def Form.work (host : Host σ) (settings : Settings) : Form → Action σ Form
  | .seq .list delims members => do
    let values ← evalMembers host settings members
    applyMembers host delims values
  | f => f.evalParts host settings

/-- Evaluating a form is doing its work one level deeper. -/
theorem Form.eval_eq_within (host : Host σ) (settings : Settings) (f : Form) :
    f.eval host settings = Action.within host settings f (f.work host settings) := by
  rcases f with _ | _ | _ | _ | _ | ⟨_ | _, _, _⟩ | _ | _ <;> rfl

/-- The values of a map are evaluated as members. -/
theorem evalValues_eq_map (host : Host σ) (settings : Settings) (ps : List (Key × Form)) :
    evalValues host settings ps = (ps.map Prod.fst).zip <$> evalMembers host settings (ps.map Prod.snd) := by
  induction ps with
  | nil => simp [evalValues, evalMembers]
  | cons p rest ih => simp [evalValues, evalMembers, ih]

end TinyLisp

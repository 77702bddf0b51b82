import TinyLisp.Form.Entries

/-!
# When two forms are the same

Two forms are the same when they are of one kind and agree in all but the tokens they come from. Keywords agree when they
are the same keyword, and functions when they are the same function. Two maps agree when they bind equally many keys and
every key of the first has in the second a value that is the same; in what order, and how often, keys were added does not
count.
-/

namespace TinyLisp

mutual

/-- Whether two forms are the same up to the tokens they come from. -/
def Form.same : Form → Form → Bool
  | .int a _, .int b _ => a == b
  | .symbol a _, .symbol b _ => a == b
  | .str a _, .str b _ => a == b
  | .keyword a _, .keyword b _ => a == b
  | .bool a, .bool b => a == b
  | .seq j _ as, .seq k _ bs => j == k && sameMembers as bs
  | .map _ as, .map _ bs => (Entries.entries as).length == (Entries.entries bs).length && sameValues as bs
  | .builtin a, .builtin b => a.same b
  | _, _ => false

/-- Whether two lists of forms are the same, member by member. -/
def sameMembers : List Form → List Form → Bool
  | [], [] => true
  | a :: as, b :: bs => a.same b && sameMembers as bs
  | _, _ => false

/-- Whether every key of the first list has the same value in the second one, where a value counts if no later one in the
first list stands under its key. -/
def sameValues : List (Key × Form) → List (Key × Form) → Bool
  | [], _ => true
  | (k, a) :: as, bs =>
    (Entries.binds as k.index ||
      match Entries.get? bs k.index with
      | some b => a.same b
      | none => false) && sameValues as bs

end

instance : BEq Form := ⟨Form.same⟩

/-- The equality test of forms is sameness. -/
theorem Form.beq_eq_same (a b : Form) : (a == b) = a.same b := rfl

end TinyLisp

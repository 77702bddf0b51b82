import TinyLisp.Form.Entries
import TinyLisp.Text.Quoted

/-!
# How a form is written

A form is written in one of two modes. Readable text has its strings as literals and can be read back; displayed text has
them as they are. The members of a collection stand between its delimiters with one blank between two of them, and a map is
written by its entries, so a value that was replaced does not show.
-/

namespace TinyLisp

/-- How strings are written: as literals, or as they are. -/
inductive PrintMode where
  | readable
  | display
  deriving DecidableEq, Repr

/-- How a string is written. -/
def PrintMode.spellString : PrintMode → List Char → List Char
  | .readable, cs => Quoted.encode cs
  | .display, cs => cs

/-- How a boolean is written. -/
def spellBool : Bool → List Char
  | true => "true".toList
  | false => "false".toList

/-- How a key is written. -/
def Key.spell (mode : PrintMode) : Key → List Char
  | .str value _ => mode.spellString value.toList
  | .keyword k _ => k.spell

/-- How a function is written. -/
def Builtin.spell (b : Builtin) : List Char := "#<builtin ".toList ++ b.name.toList ++ ['>']

/-- How an entry of a map is written, from the spelling of its value. -/
def spellEntry (mode : PrintMode) (entry : Key × List Char) : List Char := entry.1.spell mode ++ ' ' :: entry.2

mutual

/-- How a form is written. -/
def Form.spell (mode : PrintMode) : Form → List Char
  | .int value _ => Numeral.spell value.toInt
  | .symbol name _ => name.toList
  | .str value _ => mode.spellString value.toList
  | .keyword k _ => k.spell
  | .bool value => spellBool value
  | .seq kind _ members => (Shape.seq kind).enclose (spellMembers mode members)
  | .map _ pairs => Shape.map.enclose ((Entries.entries (spellValues mode pairs)).map (spellEntry mode))
  | .builtin b => b.spell

/-- How the members of a sequence are written. -/
def spellMembers (mode : PrintMode) : List Form → List (List Char)
  | [] => []
  | m :: ms => m.spell mode :: spellMembers mode ms

/-- The keys of a map with the spellings of their values. -/
def spellValues (mode : PrintMode) : List (Key × Form) → List (Key × List Char)
  | [] => []
  | (k, v) :: rest => (k, v.spell mode) :: spellValues mode rest

end

/-- The text of a form. -/
def Form.print (mode : PrintMode) (f : Form) : String := String.ofList (f.spell mode)

/-- A key is written as its form is. -/
@[simp] theorem spell_toForm (mode : PrintMode) (k : Key) : k.toForm.spell mode = k.spell mode := by cases k <;> rfl

/-- Members are written one by one. -/
theorem spellMembers_eq_map (mode : PrintMode) (ms : List Form) : spellMembers mode ms = ms.map (Form.spell mode) := by
  induction ms <;> simp_all [spellMembers]

/-- Values are written one by one, under their keys. -/
theorem spellValues_eq_map (mode : PrintMode) (ps : List (Key × Form)) :
    spellValues mode ps = ps.map fun p => (p.1, p.2.spell mode) := by
  induction ps <;> simp_all [spellValues]

end TinyLisp

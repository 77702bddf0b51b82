import TinyLisp.Error
import TinyLisp.Function
import TinyLisp.Keyword

/-!
# Forms

A form is a piece of program as it was read, or a value as it was computed. Atoms that were read keep the token they come
from, collections their two delimiters. A map is its keys and values in the order in which they were added, keys that come
again included. A key is a string or a keyword, so a map with a value for every key and no other key is the only map there
is.
-/

namespace TinyLisp

/-- The tokens that a collection was delimited by where it was read. -/
structure Delimiters where
  opening : Option Token := none
  closing : Option Token := none
  deriving DecidableEq, Repr

/-- A key of a map: a string or a keyword, and the token it was read from. -/
inductive Key where
  | str (value : String) (token : Option Token)
  | keyword (keyword : Keyword) (token : Option Token)
  deriving DecidableEq, Repr

/-- The text that a map finds a key by. A keyword is found by its name, whatever its table, behind a sign that sets it apart
from a string of that text. -/
def Key.index : Key → String
  | .str value _ => value
  | .keyword k _ => "\u029e" ++ k.name

/-- The token that a key was read from. -/
def Key.token : Key → Option Token
  | .str _ token => token
  | .keyword _ token => token

/-- A form: an atom, a collection of forms or a function. -/
inductive Form where
  | int (value : Int64) (token : Option Token)
  | symbol (name : String) (token : Option Token)
  | str (value : String) (token : Option Token)
  | keyword (keyword : Keyword) (token : Option Token)
  | bool (value : Bool)
  | seq (kind : SeqKind) (delims : Delimiters) (members : List Form)
  | map (delims : Delimiters) (pairs : List (Key × Form))
  | builtin (function : Builtin)

/-- The types of forms, as reports name them. -/
inductive FormType where
  | int
  | symbol
  | string
  | keyword
  | boolean
  | list
  | vector
  | map
  | builtin
  deriving DecidableEq, Repr

/-- The name of a type. -/
def FormType.name : FormType → String
  | .int => "int"
  | .symbol => "symbol"
  | .string => "string"
  | .keyword => "keyword"
  | .boolean => "boolean"
  | .list => "list"
  | .vector => "vector"
  | .map => "hash-map"
  | .builtin => "builtin"

/-- The form of a key. -/
def Key.toForm : Key → Form
  | .str value token => .str value token
  | .keyword k token => .keyword k token

/-- The keys and values of a map as one alternating list. -/
def alternate (pairs : List (Key × Form)) : List Form := pairs.flatMap fun p => [p.1.toForm, p.2]

/-- The first key and value are the first two members. -/
theorem alternate_cons (p : Key × Form) (rest : List (Key × Form)) :
    alternate (p :: rest) = p.1.toForm :: p.2 :: alternate rest := rfl

namespace Form

/-- A computed list. -/
def list (members : List Form) : Form := .seq .list {} members

/-- A computed vector. -/
def vector (members : List Form) : Form := .seq .vector {} members

/-- A computed integer. -/
def ofWord (value : Int64) : Form := .int value none

/-- A computed string. -/
def ofString (value : String) : Form := .str value none

/-- The type of a form. -/
def type : Form → FormType
  | .int .. => .int
  | .symbol .. => .symbol
  | .str .. => .string
  | .keyword .. => .keyword
  | .bool _ => .boolean
  | .seq .list .. => .list
  | .seq .vector .. => .vector
  | .map .. => .map
  | .builtin _ => .builtin

/-- The key that a form is: only strings and keywords are keys. -/
def asKey? : Form → Option Key
  | .str value token => some (.str value token)
  | .keyword k token => some (.keyword k token)
  | _ => none

/-- The form of a key is that key. -/
@[simp] theorem asKey?_toForm (k : Key) : k.toForm.asKey? = some k := by cases k <;> rfl

/-- A form that is a key is the form of that key. -/
theorem toForm_of_asKey? {f : Form} {k : Key} (h : f.asKey? = some k) : k.toForm = f := by
  cases f <;> cases h <;> rfl

/-- Whether a form is a list. -/
def isList : Form → Bool
  | .seq .list .. => true
  | _ => false

/-- Whether a form is a list, a vector or a map. -/
def isCollection : Form → Bool
  | .seq .. => true
  | .map .. => true
  | _ => false

/-- Whether a form is a symbol. -/
def isSymbol : Form → Bool
  | .symbol .. => true
  | _ => false

/-- Whether a form can be applied to arguments. -/
def isCallable : Form → Bool
  | .builtin _ => true
  | _ => false

/-- Whether a form is neither a collection nor a function. -/
def isAtom (f : Form) : Bool := !f.isCollection && !f.isCallable

/-- The value of an integer. -/
def asInt? : Form → Option Int64
  | .int value _ => some value
  | _ => none

/-- The value of a boolean. -/
def asBool? : Form → Option Bool
  | .bool value => some value
  | _ => none

/-- The name of a symbol. -/
def asSymbol? : Form → Option String
  | .symbol name _ => some name
  | _ => none

/-- The value of a string. -/
def asString? : Form → Option String
  | .str value _ => some value
  | _ => none

/-- The keyword that a form is. -/
def asKeyword? : Form → Option Keyword
  | .keyword k _ => some k
  | _ => none

/-- The members of a list or vector. -/
def asSeq? : Form → Option (List Form)
  | .seq _ _ members => some members
  | _ => none

/-- The keys and values of a map. -/
def asMap? : Form → Option (List (Key × Form))
  | .map _ pairs => some pairs
  | _ => none

/-- The delimiters of a collection. -/
def delims? : Form → Option Delimiters
  | .seq _ delims _ => some delims
  | .map delims _ => some delims
  | _ => none

/-- The token that an atom was read from, or that opens a collection. Booleans, functions and computed forms have none. -/
def token? : Form → Option Token
  | .int _ token => token
  | .symbol _ token => token
  | .str _ token => token
  | .keyword _ token => token
  | .bool _ => none
  | .seq _ delims _ => delims.opening
  | .map delims _ => delims.opening
  | .builtin _ => none

/-- The text that an atom was read from. -/
def sourceText? (f : Form) : Option String := if f.isCollection then none else f.token?.map Token.text

/-- The collection with other delimiters where some are given; no other form has any. -/
def withDelims (opening closing : Option Token) : Form → Form
  | .seq kind delims members => .seq kind ⟨opening.or delims.opening, closing.or delims.closing⟩ members
  | .map delims pairs => .map ⟨opening.or delims.opening, closing.or delims.closing⟩ pairs
  | f => f

end Form

end TinyLisp

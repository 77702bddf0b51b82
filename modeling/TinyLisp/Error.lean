import TinyLisp.Shape
import TinyLisp.Text.Numeral
import TinyLisp.Token.Basic

/-!
# What can go wrong, and how it is said

Reading and evaluating fail for causes of their own, each with what its report names. `ReadError.message` and
`EvalError.message` are the only places where a report is worded.
-/

namespace TinyLisp

/-- Why a text is not read as a form. -/
inductive ReadError where
  /-- A collection of the shape named is still open where the input ends or another closing delimiter stands. -/
  | mismatchedDelimiter (expected : Shape) (found : Option Token)
  /-- A closing delimiter stands where no collection is open. -/
  | unexpectedDelimiter (found : Token)
  /-- A string literal that starts at the offset has no closing quote. -/
  | unbalancedString (offset : Nat)
  /-- A backslash is followed by a character that makes no escape. -/
  | unrecognizedEscape (escape : Char)
  /-- The form with the given spelling is a key of a map and is neither a string nor a keyword. -/
  | invalidKey (key : String)
  /-- The key with the given spelling is the last member of a map. -/
  | unpairedKey (key : String)
  /-- A numeral is beyond the 64-bit integers. -/
  | integerOutOfRange (numeral : String)
  /-- A token follows the form. -/
  | trailingInput (found : Token)
  /-- There is no token but comments. -/
  | emptyInput
  /-- Collections are nested beyond the limit. -/
  | tooDeep (limit : Nat)
  deriving DecidableEq, Repr

/-- Why a form is not evaluated to a value. -/
inductive EvalError where
  /-- A symbol has no binding. -/
  | unboundSymbol (name : String)
  /-- The head of an application, spelled as given, is no function. -/
  | notCallable (head : String)
  /-- A function of fixed arity is applied to another number of arguments. -/
  | arityMismatch (name : String) (expected got : Nat)
  /-- An argument has another type than the one expected; the types are named. -/
  | typeMismatch (expected got : String)
  /-- An integer is divided by zero. -/
  | divisionByZero
  /-- A result is beyond the 64-bit integers. -/
  | integerOverflow
  /-- A function reports a failure of its own. -/
  | builtinFailure (name message : String)
  /-- Evaluation is nested beyond the limit. -/
  | stackOverflow (depth limit : Nat)
  /-- The interrupt flag is raised. -/
  | interrupted
  deriving DecidableEq, Repr

/-- Why a line gets no answer. -/
inductive Error where
  | read (cause : ReadError)
  | eval (cause : EvalError)
  deriving DecidableEq, Repr

/-- What stands where a closing delimiter was expected. -/
def foundText : Option Token → String
  | some t => "'" ++ t.text ++ "' at offset " ++ Numeral.text t.offset
  | none => "EOF"

/-- The report of a reading error. -/
def ReadError.message : ReadError → String
  | .mismatchedDelimiter expected found =>
    "expected '" ++ String.singleton expected.closing ++ "', got " ++ foundText found
  | .unexpectedDelimiter t => "unexpected '" ++ t.text ++ "' at offset " ++ Numeral.text t.offset
  | .unbalancedString offset => "expected '\"', got EOF (string starting at offset " ++ Numeral.text offset ++ ")"
  | .unrecognizedEscape c => "unrecognized escape sequence '\\" ++ String.singleton c ++ "'"
  | .invalidKey key => "invalid map key " ++ key ++ ": keys must be strings or keywords"
  | .unpairedKey key => "map key " ++ key ++ " has no value"
  | .integerOutOfRange numeral => "integer literal out of range: " ++ numeral
  | .trailingInput t => "unexpected trailing input '" ++ t.text ++ "' at offset " ++ Numeral.text t.offset
  | .emptyInput => "no input"
  | .tooDeep limit => "forms nested too deeply (max depth: " ++ Numeral.text limit ++ ")"

/-- The ending of a counted noun. -/
def plural (count : Nat) : String := if count = 1 then "" else "s"

/-- The report of an evaluation error. -/
def EvalError.message : EvalError → String
  | .unboundSymbol name => "'" ++ name ++ "' not found"
  | .notCallable head => "'" ++ head ++ "' does not appear to be a function"
  | .arityMismatch name expected got =>
    "'" ++ name ++ "' expects " ++ Numeral.text expected ++ " argument" ++ plural expected ++ ", got " ++ Numeral.text got
  | .typeMismatch expected got => "type error: expected " ++ expected ++ ", got " ++ got
  | .divisionByZero => "division by zero"
  | .integerOverflow => "integer overflow"
  | .builtinFailure name message => name ++ ": " ++ message
  | .stackOverflow depth limit =>
    "stack overflow: depth " ++ Numeral.text depth ++ " exceeds maximum " ++ Numeral.text limit
  | .interrupted => "evaluation interrupted"

/-- The report of an error. -/
def Error.message : Error → String
  | .read cause => cause.message
  | .eval cause => cause.message

end TinyLisp

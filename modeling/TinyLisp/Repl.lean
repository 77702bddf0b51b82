import TinyLisp.Session
import TinyLisp.Text.Backspace

/-!
# The loop over the lines of an input

A loop reads lines from its input and answers each of them in one session. A line is a piece of the input up to a newline, or
up to the end; a carriage return before the newline is dropped, and the line as a whole has to be UTF-8. A plain loop writes
a prompt before each line that it reads; any other loop lets the backspaces in a line take back what stands before them.
`LoopOptions.line` is the line as the loop takes it, `Repl.answer` takes the loop over one line, whatever supplies it, and
`Repl.transcript` is all that a run over a whole input writes.
-/

namespace TinyLisp

/-- How the loop is to be run: as a plain loop with prompts, without evaluation, with a trace. -/
structure LoopOptions where
  plain : Bool := false
  readOnly : Bool := false
  trace : Bool := false
  deriving DecidableEq, Repr

/-- What the loop writes before each line that it reads. -/
def LoopOptions.prompt (o : LoopOptions) : String := if o.plain then "user> " else ""

/-- Why a loop cannot take a line. -/
inductive LineFault where
  | notText
  | brokenCharacter
  deriving DecidableEq, Repr

/-- The exit code of a run that ends with a fault. -/
def LineFault.code : LineFault → Nat
  | .notText => 1
  | .brokenCharacter => 101

/-- What the loop reports when it cannot take a line. -/
def LoopOptions.report (o : LoopOptions) : LineFault → String
  | .notText =>
    if o.plain then "Error: failed to read from stdin\n\nCaused by:\n    stream did not contain valid UTF-8\n"
    else
      "Error: failed to read line\n\nCaused by:\n    0: stream did not contain valid UTF-8\n" ++
        "    1: stream did not contain valid UTF-8\n"
  | .brokenCharacter => "Error: a backspace takes back a part of a character\n"

/-- A loop between two lines. -/
structure Repl where
  options : LoopOptions
  session : Session
  world : World := {}

/-- What a run of the program leaves outside: its exit code and what it wrote to the two outputs. -/
structure Transcript where
  code : Nat
  stdout : String
  stderr : String
  deriving DecidableEq, Repr

/-- The transcript with more text in front. -/
def Transcript.after (out err : String) (t : Transcript) : Transcript := ⟨t.code, out ++ t.stdout, err ++ t.stderr⟩

/-- What the loop shows for the result of a line, its newline included. A line without a form gets no answer. -/
def shown : Except Error String → String
  | .ok text => text ++ "\n"
  | .error (.read .emptyInput) => ""
  | .error e => "error: " ++ e.message ++ "\n"

/-- The lines of an input. -/
def splitLines : List UInt8 → List (List UInt8)
  | [] => []
  | 10 :: rest => [] :: splitLines rest
  | 13 :: 10 :: rest => [] :: splitLines rest
  | b :: rest =>
    match splitLines rest with
    | [] => [[b]]
    | line :: lines => (b :: line) :: lines

/-- The text of a line, if it is UTF-8. -/
def lineText? (bytes : List UInt8) : Option String := String.fromUTF8? ⟨bytes.toArray⟩

/-- The line that the loop takes some bytes for: their text, with nothing taken back if the loop is plain. -/
def LoopOptions.line (o : LoopOptions) (bytes : List UInt8) : Except LineFault String :=
  match lineText? bytes with
  | none => .error .notText
  | some text =>
    if o.plain then .ok text
    else
      match takeBack? text.toList with
      | none => .error .brokenCharacter
      | some left => .ok (String.ofList left)

/-- A plain loop takes a line as it is. -/
theorem LoopOptions.line_of_plain {o : LoopOptions} {bytes : List UInt8} {text : String} (ho : o.plain = true)
    (ht : lineText? bytes = some text) : o.line bytes = .ok text := by
  simp [line, ho, ht]

/-- Any loop takes a line without a backspace as it is. -/
theorem LoopOptions.line_of_not_mem {o : LoopOptions} {bytes : List UInt8} {text : String}
    (ht : lineText? bytes = some text) (hb : backspace ∉ text.toList) : o.line bytes = .ok text := by
  simp [line, ht, takeBack?_of_not_mem hb]

namespace Repl

/-- A loop at its start, in a session of its own. -/
def start (o : LoopOptions) : Repl := { options := o, session := .withPrelude 0 0 { trace := o.trace } }

/-- The answer to a line: what is shown, the trace, and the loop after it. -/
def answer (r : Repl) (line : String) : String × List Event × Repl :=
  if r.options.readOnly then (shown (Session.echoLine line), [], r)
  else
    let a := r.session.evalLine r.world line
    (shown a.result, a.trace, { r with session := a.session, world := a.world })

/-- The transcript of the lines to come, from behind the prompt of the first one. -/
def follow (r : Repl) : List (List UInt8) → Transcript
  | [] => ⟨0, "\n", ""⟩
  | bytes :: rest =>
    match r.options.line bytes with
    | .error fault => ⟨fault.code, "", r.options.report fault⟩
    | .ok line =>
      let (out, trace, r') := r.answer line
      (r'.follow rest).after (out ++ r.options.prompt) (traceText trace)

/-- The transcript of a run over a whole input. -/
def transcript (o : LoopOptions) (input : List UInt8) : Transcript :=
  ((start o).follow (splitLines input)).after o.prompt ""

end Repl

end TinyLisp

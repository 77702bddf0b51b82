import TinyLisp.CommandLine

/-!
# The program

The outermost layer: it takes lines from standard input as they come and writes each answer before it asks for the next line.
What is written is decided by `Repl.answer`.
-/

namespace TinyLisp

/-- The bytes of the next line, its newline included; none at the end of the input. -/
partial def readLine (input : IO.FS.Stream) (line : ByteArray) : IO ByteArray := do
  let byte ← input.read 1
  if byte.isEmpty then return line
  let line := line ++ byte
  if byte.toList == [10] then return line else readLine input line

/-- Answers line after line; the exit code of the program. -/
partial def drive (input output errors : IO.FS.Stream) (r : Repl) : IO UInt32 := do
  output.putStr r.options.prompt
  output.flush
  let bytes ← readLine input .empty
  match splitLines bytes.toList with
  | [] =>
    output.putStr "\n"
    return 0
  | bytes :: _ =>
    match r.options.line bytes with
    | .error fault =>
      errors.putStr (r.options.report fault)
      return fault.code.toUInt32
    | .ok line =>
      let (out, trace, r') := r.answer line
      errors.putStr (traceText trace)
      output.putStr out
      drive input output errors r'

/-- Does what the arguments ask for; the exit code of the program. -/
def perform (args : List String) : IO UInt32 := do
  match Request.ofArgs? {} args with
  | some .version =>
    IO.print versionText
    return 0
  | some (.loop o) => drive (← IO.getStdin) (← IO.getStdout) (← IO.getStderr) (Repl.start o)
  | none =>
    IO.eprint usageText
    return 2

end TinyLisp

/-- Runs the program. -/
def main (args : List String) : IO UInt32 := TinyLisp.perform args

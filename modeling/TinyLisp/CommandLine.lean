import TinyLisp.Repl

/-!
# The command line

The arguments ask for the loop over standard input or for the version of the program. They are taken from left to right, and
the first one that asks for the version settles the matter, whatever comes after it. Each option of the loop may be given
once. Nothing is read from standard input before the arguments are understood.
-/

namespace TinyLisp

/-- What the arguments ask for. -/
inductive Request where
  | version
  | loop (options : LoopOptions)
  deriving DecidableEq, Repr

/-- Whether an argument asks for the version: by the long option, or by a run of short options behind one dash that starts
with the short one. The rest of such a run does not count. -/
def asksForVersion (arg : String) : Bool :=
  match arg.toList with
  | '-' :: 'V' :: _ => true
  | _ => arg == "--version"

/-- The request that arguments make after those already taken into the options; nothing where they make none. -/
def Request.ofArgs? (o : LoopOptions) : List String → Option Request
  | [] => some (.loop o)
  | ["--"] => some (.loop o)
  | arg :: rest =>
    if asksForVersion arg then some .version
    else
      match arg with
      | "--raw" => if o.plain then none else ofArgs? { o with plain := true } rest
      | "--read-only" => if o.readOnly then none else ofArgs? { o with readOnly := true } rest
      | "--trace" => if o.trace then none else ofArgs? { o with trace := true } rest
      | _ => none

/-- What the program says about its version. -/
def versionText : String := "sprig 0.0.1\n"

/-- What the program says about arguments that it does not understand. -/
def usageText : String := "error: unexpected arguments\n"

/-- The transcript of a run of the program with the given arguments and standard input. -/
def runProgram (args : List String) (input : List UInt8) : Transcript :=
  match Request.ofArgs? {} args with
  | some .version => ⟨0, versionText, ""⟩
  | some (.loop o) => Repl.transcript o input
  | none => ⟨2, "", usageText⟩

end TinyLisp

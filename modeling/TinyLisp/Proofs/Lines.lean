import Mathlib
import TinyLisp.CommandLine
import TinyLisp.Proofs.Prelude

/-!
# Lines are answered independently

`Lines` says what the lines of an input are, and `utf8` what bytes make up a text. `Written` says what is written for a line,
by the result that the line has alone, in a session that no line came before (`alone`).

Whatever a line leads to, the loop is afterwards what it was at its start (`Repl.answer_start`). So a loop writes for each line
what it would write if that line were the only one: `runProgram_plain` says what a plain run writes and how it ends, and
`runProgram_edited` says it of any other run, for lines without a backspace.
-/

namespace TinyLisp

/-! ## Lines of an input -/

/-- A line without the carriage return at its end, if there is one. -/
def dropReturn (line : List UInt8) : List UInt8 := if line.getLast? = some 13 then line.dropLast else line

/-- A byte at the front stays, unless it is all that stood before the newline. -/
theorem dropReturn_cons (b : UInt8) {line : List UInt8} (h : b = 13 → line ≠ []) :
    dropReturn (b :: line) = b :: dropReturn line := by
  cases line with
  | nil =>
    have hb : b ≠ 13 := fun hb => h hb rfl
    simp [dropReturn, hb]
  | cons c line =>
    unfold dropReturn
    rw [List.getLast?_cons_cons]
    split <;> rfl

/-- A byte that neither ends a line nor belongs to its end is the first of its line. -/
theorem splitLines_cons {b : UInt8} {bytes : List UInt8} (hn : b ≠ 10) (hr : b = 13 → bytes.head? ≠ some 10) :
    splitLines (b :: bytes) =
      match splitLines bytes with
      | [] => [[b]]
      | line :: lines => (b :: line) :: lines :=
  splitLines.eq_4 b bytes hn fun rest hb hrest => hr hb (by simp [hrest])

/-- Up to the first newline the input is a line, but for a carriage return before the newline. -/
theorem splitLines_append {line : List UInt8} (h : 10 ∉ line) (rest : List UInt8) :
    splitLines (line ++ 10 :: rest) = dropReturn line :: splitLines rest := by
  induction line with
  | nil => rfl
  | cons b line ih =>
    obtain ⟨hb, hline⟩ := not_or.mp (mt List.mem_cons.mpr h)
    by_cases hr : b = 13 ∧ line = []
    · obtain ⟨rfl, rfl⟩ := hr
      rfl
    · have hlast : b = 13 → line ≠ [] := fun hb hl => hr ⟨hb, hl⟩
      have hhead : b = 13 → (line ++ 10 :: rest).head? ≠ some 10 := by
        intro hb
        cases line with
        | nil => exact absurd rfl (hlast hb)
        | cons c line =>
          rintro hc
          exact hline (by simp_all)
      rw [List.cons_append, splitLines_cons (Ne.symm hb) hhead, ih hline, dropReturn_cons b hlast]

/-- Without a newline the input is one line, or none if it is empty. -/
theorem splitLines_of_not_mem {line : List UInt8} (h : 10 ∉ line) (hne : line ≠ []) : splitLines line = [line] := by
  induction line with
  | nil => exact absurd rfl hne
  | cons b line ih =>
    obtain ⟨hb, hline⟩ := not_or.mp (mt List.mem_cons.mpr h)
    have hhead : b = 13 → line.head? ≠ some 10 := fun _ hc => hline (List.mem_of_head? hc)
    rw [splitLines_cons (Ne.symm hb) hhead]
    cases line with
    | nil => rfl
    | cons c line => rw [ih hline (by simp)]

/-- The lines of an input: each goes up to a newline, without the carriage return before it, and what stands behind the last
newline is a line if there is anything. -/
inductive Lines : List UInt8 → List (List UInt8) → Prop
  | none : Lines [] []
  | last {line : List UInt8} (h : 10 ∉ line) (hne : line ≠ []) : Lines line [line]
  | next {line rest : List UInt8} {lines : List (List UInt8)} (h : 10 ∉ line) (hrest : Lines rest lines) :
      Lines (line ++ 10 :: rest) (dropReturn line :: lines)

/-- Every input has lines, which are found by splitting it. -/
theorem lines_splitLines (input : List UInt8) : Lines input (splitLines input) := by
  by_cases h : 10 ∈ input
  · obtain ⟨line, rest, hinput, hline⟩ := List.eq_append_cons_of_mem h
    have hlt : rest.length < input.length := by
      rw [hinput, List.length_append, List.length_cons]
      omega
    rw [hinput, splitLines_append hline]
    exact .next hline (lines_splitLines rest)
  · by_cases hne : input = []
    · subst hne
      exact .none
    · rw [splitLines_of_not_mem h hne]
      exact .last h hne
termination_by input.length

/-- An input has the lines that splitting it finds and no others. -/
theorem lines_iff {input : List UInt8} {lines : List (List UInt8)} : Lines input lines ↔ splitLines input = lines := by
  refine ⟨fun h => ?_, ?_⟩
  · induction h with
    | none => rfl
    | last h hne => exact splitLines_of_not_mem h hne
    | next h _ ih => rw [splitLines_append h, ih]
  · rintro rfl
    exact lines_splitLines input

/-- An input has lines in one way only. -/
theorem existsUnique_lines (input : List UInt8) : ∃! lines, Lines input lines :=
  ⟨splitLines input, lines_splitLines input, fun _ h => (lines_iff.mp h).symm⟩

/-- The bytes of a text. -/
def utf8 (text : String) : List UInt8 := text.toUTF8.data.toList

/-- Bytes are taken for the text that is made up of them, if there is one. -/
theorem lineText?_eq_some_iff {bytes : List UInt8} {text : String} : lineText? bytes = some text ↔ utf8 text = bytes := by
  unfold lineText? String.fromUTF8?
  constructor
  · intro h
    split at h
    · cases h
      rfl
    · nomatch h
  · rintro rfl
    have hbytes : (⟨(utf8 text).toArray⟩ : ByteArray) = text.toByteArray := rfl
    rw [hbytes, dif_pos text.isValidUTF8]
    rfl

/-- Bytes that make up no text are not taken for one. -/
theorem lineText?_eq_none_iff {bytes : List UInt8} : lineText? bytes = none ↔ ∀ text, utf8 text ≠ bytes := by
  simp only [Option.eq_none_iff_forall_ne_some, ne_eq, lineText?_eq_some_iff]

/-! ## Arguments -/

/-- Options of the loop, each given at most once and not set before, are set. -/
theorem Request.ofArgs?_of_subset {o : LoopOptions} {args : List String} (hn : args.Nodup)
    (hs : args ⊆ ["--raw", "--read-only", "--trace"]) (hplain : "--raw" ∈ args → o.plain = false)
    (hread : "--read-only" ∈ args → o.readOnly = false) (htrace : "--trace" ∈ args → o.trace = false) :
    Request.ofArgs? o args = some (.loop ⟨o.plain || "--raw" ∈ args, o.readOnly || "--read-only" ∈ args,
      o.trace || "--trace" ∈ args⟩) := by
  induction args generalizing o with
  | nil => simp [ofArgs?]
  | cons arg rest ih =>
    obtain ⟨harg, hrest⟩ := List.nodup_cons.mp hn
    obtain ⟨hmem, hsub⟩ := List.cons_subset.mp hs
    simp only [List.mem_cons, List.not_mem_nil, or_false] at hmem
    -- Each option is set by its own step and is not met again.
    rcases hmem with rfl | rfl | rfl
    · have hstep : ofArgs? o ("--raw" :: rest) = ofArgs? { o with plain := true } rest := by
        simp [ofArgs?, asksForVersion, hplain]
      rw [hstep, ih (o := { o with plain := true }) hrest hsub (fun h => absurd h harg) (fun h => hread (.tail _ h))
        fun h => htrace (.tail _ h)]
      simp
    · have hstep : ofArgs? o ("--read-only" :: rest) = ofArgs? { o with readOnly := true } rest := by
        simp [ofArgs?, asksForVersion, hread]
      rw [hstep, ih (o := { o with readOnly := true }) hrest hsub (fun h => hplain (.tail _ h)) (fun h => absurd h harg)
        fun h => htrace (.tail _ h)]
      simp
    · have hstep : ofArgs? o ("--trace" :: rest) = ofArgs? { o with trace := true } rest := by
        simp [ofArgs?, asksForVersion, htrace]
      rw [hstep, ih (o := { o with trace := true }) hrest hsub (fun h => hplain (.tail _ h)) (fun h => hread (.tail _ h))
        fun h => absurd h harg]
      simp

/-! ## Answers -/

/-- The result that a line has alone, evaluated in a session that no line came before, or only read. -/
def alone (readOnly : Bool) (line : String) : Except Error String :=
  if readOnly then Session.echoLine line else (Session.standard.evalLine {} line).result

/-- What is written for a line, by the result that it has: the result or the report of an error, each up to a newline, and nothing
for a line without a form. -/
inductive Written : Except Error String → String → Prop
  | result (out : String) : Written (.ok out) (out ++ "\n")
  | nothing : Written (.error (.read .emptyInput)) ""
  | report {e : Error} (he : e ≠ .read .emptyInput) : Written (.error e) ("error: " ++ e.message ++ "\n")

/-- What a loop shows is what is to be written, and nothing else is. -/
theorem written_iff {result : Except Error String} {text : String} : Written result text ↔ shown result = text := by
  constructor
  · rintro (out | _ | he)
    · rfl
    · rfl
    · exact shown.eq_3 _ he
  · rintro rfl
    unfold shown
    split
    · exact .result _
    · exact .nothing
    · next e he => exact .report he

namespace Repl

/-- A loop at its start shows the result that a line has alone, and is at its start again. -/
theorem answer_start (o : LoopOptions) (line : String) :
    ∃ trace, (start o).answer line = (shown (alone o.readOnly line), trace, start o) := by
  by_cases hr : o.readOnly = true
  · exact ⟨[], by simp [answer, start, alone, hr]⟩
  · have hopt : ¬(start o).options.readOnly = true := hr
    have hsession := (Session.arithmetic_withPrelude 0 0 { trace := o.trace }).evalLine {} line
    have hresult : ((start o).session.evalLine {} line).result = (Session.standard.evalLine {} line).result :=
      Session.result_evalLine (s := (start o).session) (t := Session.standard) rfl rfl rfl {} line
    refine ⟨((start o).session.evalLine {} line).trace, ?_⟩
    rw [answer, if_neg hopt, alone, if_neg hr, ← hresult]
    exact congrArg (fun r => (_, _, r)) (congr (congrArg (Repl.mk o) hsession.1) hsession.2)

/-- What a loop writes for lines: for each the answer to it alone, and a prompt for the next one. -/
def answers (o : LoopOptions) (texts : List String) : String :=
  String.join (texts.map fun text => shown (alone o.readOnly text) ++ o.prompt)

/-- Lines that the loop takes as they are get their answers, whatever comes after them. -/
theorem follow_start {o : LoopOptions} {texts : List String} (h : ∀ text ∈ texts, o.line (utf8 text) = .ok text)
    (rest : List (List UInt8)) :
    ∃ err, (start o).follow (texts.map utf8 ++ rest) = ((start o).follow rest).after (answers o texts) err := by
  induction texts with
  | nil => exact ⟨"", by simp [Transcript.after, answers]⟩
  | cons text texts ih =>
    obtain ⟨hline, hlines⟩ := List.forall_mem_cons.mp h
    obtain ⟨trace, hanswer⟩ := answer_start o text
    obtain ⟨err, hfollow⟩ := ih hlines
    refine ⟨traceText trace ++ err, ?_⟩
    have hline : (start o).options.line (utf8 text) = .ok text := hline
    have hprompt : (start o).options.prompt = o.prompt := rfl
    rw [List.map_cons, List.cons_append, follow, hline]
    simp only [hanswer, hprompt, hfollow, Transcript.after, answers, List.map_cons, String.join_cons, String.append_assoc]

/-- A run over lines that the loop takes as they are writes their answers and ends well. -/
theorem transcript_of_lines {o : LoopOptions} {input : List UInt8} {texts : List String}
    (hl : Lines input (texts.map utf8)) (h : ∀ text ∈ texts, o.line (utf8 text) = .ok text) :
    (transcript o input).code = 0 ∧ (transcript o input).stdout = o.prompt ++ answers o texts ++ "\n" := by
  obtain ⟨err, hfollow⟩ := follow_start h []
  rw [List.append_nil] at hfollow
  rw [transcript, lines_iff.mp hl, hfollow]
  exact ⟨rfl, (String.append_assoc ..).symm⟩

/-- A run over lines of which one is no text writes the answers to those before it and fails. -/
theorem transcript_of_bad_line {o : LoopOptions} {input : List UInt8} {texts : List String} {bad : List UInt8}
    {rest : List (List UInt8)} (hl : Lines input (texts.map utf8 ++ bad :: rest))
    (h : ∀ text ∈ texts, o.line (utf8 text) = .ok text) (hbad : ∀ text, utf8 text ≠ bad) :
    (transcript o input).code = 1 ∧ (transcript o input).stdout = o.prompt ++ answers o texts := by
  obtain ⟨err, hfollow⟩ := follow_start h (bad :: rest)
  have hfault : (start o).options.line bad = .error .notText := by
    rw [LoopOptions.line, lineText?_eq_none_iff.mpr hbad]
  rw [transcript, lines_iff.mp hl, hfollow, follow, hfault]
  exact ⟨rfl, by simp [Transcript.after]⟩

end Repl

/-! ## Runs -/

/-- A plain run writes a prompt, then for each line the answer to that line alone and another prompt, and a newline at the end.
If a line is no text, the run ends with a failure behind the prompt before that line. -/
theorem runProgram_plain {args : List String} (hn : args.Nodup) (hs : args ⊆ ["--raw", "--read-only", "--trace"])
    (hplain : "--raw" ∈ args) :
    ∃ answer : String → String, (∀ line, Written (alone ("--read-only" ∈ args) line) (answer line)) ∧
      ∀ input : List UInt8, (∃! lines, Lines input lines) ∧
        (∀ texts : List String, Lines input (texts.map utf8) →
          (runProgram args input).code = 0 ∧ (runProgram args input).stdout =
            "user> " ++ String.join (texts.map fun text => answer text ++ "user> ") ++ "\n") ∧
        ∀ (texts : List String) (bad : List UInt8) (rest : List (List UInt8)),
          Lines input (texts.map utf8 ++ bad :: rest) → (∀ text, utf8 text ≠ bad) →
            (runProgram args input).code = 1 ∧ (runProgram args input).stdout =
              "user> " ++ String.join (texts.map fun text => answer text ++ "user> ") := by
  have ha := Request.ofArgs?_of_subset (o := {}) hn hs (fun _ => rfl) (fun _ => rfl) fun _ => rfl
  simp only [hplain, decide_true, Bool.false_or] at ha
  have hline : ∀ text, LoopOptions.line ⟨true, "--read-only" ∈ args, "--trace" ∈ args⟩ (utf8 text) = .ok text := by
    intro text
    exact LoopOptions.line_of_plain rfl (lineText?_eq_some_iff.mpr rfl)
  refine ⟨fun line => shown (alone ("--read-only" ∈ args) line), fun line => written_iff.mpr rfl, ?_⟩
  intro input
  simp only [runProgram, ha]
  refine ⟨existsUnique_lines input, ?_, ?_⟩
  · intro texts hl
    exact Repl.transcript_of_lines hl fun text _ => hline text
  · intro texts bad rest hl hbad
    exact Repl.transcript_of_bad_line hl (fun text _ => hline text) hbad

/-- A plain run with a sum, a comment and an open parenthesis, and a plain run that only reads and comes to a byte that is no
text. -/
theorem runProgram_plain_sum :
    (runProgram ["--trace", "--raw"] (utf8 "(+ 1 2)\r\n;\n(")).code = 0 ∧
      (runProgram ["--trace", "--raw"] (utf8 "(+ 1 2)\r\n;\n(")).stdout =
        "user> 3\nuser> user> error: expected ')', got EOF\nuser> \n" ∧
      (runProgram ["--raw", "--read-only"] (utf8 "(+  1 2)\n" ++ [255])).code = 1 ∧
      (runProgram ["--raw", "--read-only"] (utf8 "(+  1 2)\n" ++ [255])).stdout = "user> (+ 1 2)\nuser> " := by
  obtain ⟨answer, hwritten, hrun⟩ := @runProgram_plain ["--trace", "--raw"] (by decide) (by decide) (by decide)
  have hlines : Lines (utf8 "(+ 1 2)\r\n;\n(") (["(+ 1 2)", ";", "("].map utf8) := lines_iff.mpr (by cbv)
  have hsum : answer "(+ 1 2)" = "3\n" := (written_iff.mp (hwritten _)).symm.trans (by cbv)
  have hcomment : answer ";" = "" := (written_iff.mp (hwritten _)).symm.trans (by cbv)
  have hfault : alone false "(" = .error (.read (.mismatchedDelimiter (.seq .list) none)) := by cbv
  have hopen : answer "(" = "error: expected ')', got EOF\n" :=
    (written_iff.mp (hwritten _)).symm.trans ((congrArg shown hfault).trans (by decide))
  obtain ⟨hcode, hout⟩ := (hrun _).2.1 _ hlines
  simp only [List.map_cons, List.map_nil, hsum, hcomment, hopen] at hout
  obtain ⟨answer', hwritten', hrun'⟩ := @runProgram_plain ["--raw", "--read-only"] (by decide) (by decide) (by decide)
  have hlines' : Lines (utf8 "(+  1 2)\n" ++ [255]) (["(+  1 2)"].map utf8 ++ [255] :: []) := lines_iff.mpr (by cbv)
  have hecho : answer' "(+  1 2)" = "(+ 1 2)\n" := (written_iff.mp (hwritten' _)).symm.trans (by cbv)
  have hbad : ∀ text, utf8 text ≠ [255] := lineText?_eq_none_iff.mp (by decide)
  obtain ⟨hcode', hout'⟩ := (hrun' _).2.2 _ _ _ hlines' hbad
  simp only [List.map_cons, List.map_nil, hecho] at hout'
  exact ⟨hcode, hout, hcode', hout'⟩

/-- Without prompts, a run writes for each line without a backspace the answer to that line alone, and a newline at the end. If a
line is no text, the run ends with a failure before it. -/
theorem runProgram_edited {args : List String} (hn : args.Nodup) (hs : args ⊆ ["--raw", "--read-only", "--trace"])
    (hplain : "--raw" ∉ args) :
    ∃ answer : String → String, (∀ line, Written (alone ("--read-only" ∈ args) line) (answer line)) ∧
      ∀ (input : List UInt8) (texts : List String), (∀ text ∈ texts, backspace ∉ text.toList) →
        (Lines input (texts.map utf8) →
          (runProgram args input).code = 0 ∧ (runProgram args input).stdout = String.join (texts.map answer) ++ "\n") ∧
        ∀ (bad : List UInt8) (rest : List (List UInt8)),
          Lines input (texts.map utf8 ++ bad :: rest) → (∀ text, utf8 text ≠ bad) →
            (runProgram args input).code = 1 ∧ (runProgram args input).stdout = String.join (texts.map answer) := by
  have ha := Request.ofArgs?_of_subset (o := {}) hn hs (fun _ => rfl) (fun _ => rfl) fun _ => rfl
  simp only [hplain, decide_false, Bool.false_or] at ha
  refine ⟨fun line => shown (alone ("--read-only" ∈ args) line), fun line => written_iff.mpr rfl, ?_⟩
  intro input texts hb
  have hline : ∀ text ∈ texts, LoopOptions.line ⟨false, "--read-only" ∈ args, "--trace" ∈ args⟩ (utf8 text) = .ok text := by
    intro text ht
    exact LoopOptions.line_of_not_mem (lineText?_eq_some_iff.mpr rfl) (hb text ht)
  simp only [runProgram, ha]
  constructor
  · intro hl
    simpa [Repl.answers, LoopOptions.prompt] using Repl.transcript_of_lines hl hline
  · intro bad rest hl hbad
    simpa [Repl.answers, LoopOptions.prompt] using Repl.transcript_of_bad_line hl hline hbad

end TinyLisp

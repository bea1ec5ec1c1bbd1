import LineConsole.Demo.Program
import LineConsole.Proofs.FibonacciNumbers
import LineConsole.Proofs.Interfaces

/-!
The program that prints Fibonacci numbers, from its input to its output and its exit code. The
first line of the input decides everything: whether there is one, whether it is a text, and
whether that is a number. The logger has no part in it.
-/
namespace LineConsole.Demo

open Host Fallible Console LineBuffer Pieces
open Utf8 (encode IsText)

theorem say_apply (level : Level) (text : String) (v : View Stdout) :
    say level text v = (.ok (), { v with
      state.streams.log := v.state.streams.log ++ [.message level "pyio_fib" text] }) := rfl

/-- Standard output that works takes all the numbers. -/
theorem printAll_apply (numbers : List Int32) (v : View Stdout)
    (hopen : v.state.streams.output.full = false) :
    printAll numbers v = (.ok (.ok ()), { v with
      state.streams := Streams.outlet.put
        (numbers.flatMap fun n => lineOf (Value.int n).text) v.state.streams }) := by
  induction numbers generalizing v with
  | nil =>
    rw [List.flatMap_nil, Streams.outlet.put_nil]
    rfl
  | cons n rest ih =>
    have hprint := Streams.outlet.print (s := v.state.streams) hopen (.int n)
    have hput := Streams.outlet.open_put (lineOf (Value.int n).text) v.state.streams hopen
    rw [printAll, bind_apply, Run.output_apply, hprint]
    simp only
    rw [ih, List.flatMap_cons, ← Streams.outlet.put_put]
    · rfl
    · exact hput

/-- What the question is answered with. -/
theorem question_apply (v : View Stdout) (hopen : v.state.streams.output.full = false) :
    ∃ s line, Run.console (inputPrompt question) v =
        (.ok ((firstLine v.state.streams.input).bind fun bytes => (ofBytes bytes).text),
          { v with state.streams := s, thread.line := line }) ∧
      Streams.ReadOn (Streams.outlet.put (encode question) v.state.streams) s := by
  let asked : Console (Streams Stdout) :=
    ⟨Streams.outlet.put (encode question) v.state.streams, v.thread.line⟩
  have hread : prompt (encode question) ⟨v.state.streams, v.thread.line⟩ = readLine asked :=
    Streams.outlet.prompt (c := ⟨v.state.streams, v.thread.line⟩) hopen _
  have hfirst : (readLine asked).1 = firstLine v.state.streams.input :=
    (readLine_lineRead asked).eq_firstLine
  have htext : inputPrompt question ⟨v.state.streams, v.thread.line⟩ =
      ((firstLine v.state.streams.input).bind fun bytes => (ofBytes bytes).text,
        (readLine asked).2) := by
    rw [← hfirst, ← hread]
    exact readText_apply (some (encode question)) _
  refine ⟨(readLine asked).2.channel, (readLine asked).2.line, ?_,
    Streams.readLine_readOn asked⟩
  rw [Run.console_apply, htext]

/-- Without a line that is a text there is nothing to do. -/
theorem program_error {v w : View Stdout} {fault : Fault}
    (h : Run.console (inputPrompt question) v = (.ok (.error fault), w)) :
    ∃ log, program v = (.ok 2, { w with state.streams.log := log }) := by
  rw [program, bind_apply, h]
  cases fault <;> exact ⟨_, rfl⟩

theorem program_refused {v w : View Stdout} {text : String} {e : LiteralError}
    (h : Run.console (inputPrompt question) v = (.ok (.ok text), w))
    (he : Literal.parse (encode text) = .error e) :
    ∃ q, program v = (.error w.state.configured.exitCode, { w with state := q }) ∧
      Refused e w.state q := by
  obtain ⟨q, hexit, hrefused⟩ := Run.exitInvalid_apply (α := Int32) e w
  refine ⟨q, ?_, hrefused⟩
  rw [program, bind_apply, h]
  simp only [bind_apply, Run.parseInt, he, hexit]

/-- The warning that there are fewer numbers than were asked for. -/
def shortage : Event := .message .warn "pyio_fib" "only 47 fibonacci numbers fit into int"

theorem program_accepted {v w : View Stdout} {text : String} {n : Int32}
    (h : Run.console (inputPrompt question) v = (.ok (.ok text), w))
    (hn : Literal.parse (encode text) = .ok n) (hopen : w.state.streams.output.full = false) :
    ∃ log, program v = (.ok 0, { w with
        state.streams :=
          { Streams.outlet.put (Fibonacci.lines n.toInt.toNat) w.state.streams with log } }) ∧
      log = w.state.streams.log ++
        .message .info "pyio_fib" s!"printing {n.toInt.toNat} fibonacci numbers" ::
          if Fibonacci.count < n.toInt.toNat then [shortage] else [] := by
  have hparse : Run.parseInt (encode text) w = (.ok n, w) := by
    rw [Run.parseInt, hn]
    rfl
  rw [program, bind_apply, h]
  simp only [bind_apply, hparse, say_apply]
  rw [printAll_apply]
  · simp only [Fibonacci.flatMap_numbers, Fibonacci.length_numbers]
    by_cases hlt : Fibonacci.count < n.toInt.toNat
    · have hmin : min n.toInt.toNat Fibonacci.count = Fibonacci.count := by omega
      simp only [hmin, if_pos hlt]
      refine ⟨_, rfl, ?_⟩
      exact List.append_assoc _ _ _
    · have hmin : ¬ min n.toInt.toNat Fibonacci.count < n.toInt.toNat := by omega
      simp only [if_neg hmin, if_neg hlt]
      exact ⟨_, rfl, rfl⟩
  · exact hopen

def start (input : Script) (environment : Environment) : State :=
  { streams := { input, output := {} }, environment }

theorem exists_error_of_no_text {r : Except Fault Bytes} (h : ∀ text, r ≠ .ok (encode text)) :
    ∃ fault, (r.bind fun bytes => (ofBytes bytes).text) = .error fault := by
  cases r with
  | error fault => exact ⟨fault, rfl⟩
  | ok bytes =>
    have hbytes : ¬ IsText bytes := by
      rintro ⟨text, rfl⟩
      exact h text rfl
    exact ⟨.invalidUtf8, text_ofBytes_of_not_isText hbytes⟩

structure Asked (input : Script) (environment : Environment) (w : View Stdout) : Prop where
  question : Run.console (inputPrompt question) { state := start input environment } =
    (.ok ((firstLine input).bind fun bytes => (ofBytes bytes).text), w)
  written : w.state.streams.output.written = encode Demo.question
  working : w.state.streams.output.full = false
  log : ∃ reasons : List String, w.state.streams.log = reasons.map .readFailed
  configured : w.state.configured = (Settings.load environment).1

theorem exists_asked (input : Script) (environment : Environment) :
    ∃ w, Asked input environment w := by
  obtain ⟨s, line, hquestion, houtput, reasons, hlog⟩ :=
    question_apply { state := start input environment } rfl
  refine ⟨_, hquestion, ?_, ?_, ⟨reasons, hlog⟩, rfl⟩
  · rw [houtput]
    rfl
  · rw [houtput]
    rfl

theorem Asked.answer {input : Script} {environment : Environment} {w : View Stdout}
    (h : Asked input environment w) {text : String} (hline : firstLine input = .ok (encode text)) :
    Run.console (inputPrompt Demo.question) { state := start input environment } =
      (.ok (.ok text), w) := by
  rw [h.question, hline, Except.bind, text_ofBytes_encode]

theorem outcome_of_ok (logger : Logger) {p : State} {code : Nat} {w : View Stdout}
    (h : program { state := p } = (.ok code, w)) :
    outcome logger p = ⟨code, w.state.streams.output.written, stderr logger w.state⟩ := by
  rw [outcome, h]

theorem outcome_of_error (logger : Logger) {p : State} {code : ExitCode} {w : View Stdout}
    (h : program { state := p } = (.error code, w)) :
    outcome logger p = ⟨code.val, w.state.streams.output.written, stderr logger w.state⟩ := by
  rw [outcome, h]

variable (logger : Logger) (input : Script) (environment : Environment)

theorem outcome_no_text (h : ∀ text, firstLine input ≠ .ok (encode text)) :
    (outcome logger (start input environment)).stdout = encode question ∧
      (outcome logger (start input environment)).exitCode = 2 := by
  obtain ⟨w, hasked⟩ := exists_asked input environment
  obtain ⟨fault, hfault⟩ := exists_error_of_no_text h
  obtain ⟨log, hprogram⟩ := program_error (hfault ▸ hasked.question)
  rw [outcome_of_ok logger hprogram]
  exact ⟨hasked.written, rfl⟩

theorem outcome_refused {text : String} {e : LiteralError}
    (hline : firstLine input = .ok (encode text)) (he : Literal.parse (encode text) = .error e) :
    (outcome logger (start input environment)).stdout = encode question ++
        (if (Settings.load environment).1.stream = .stdout then lineOf e.message else []) ∧
      (outcome logger (start input environment)).exitCode =
        (Settings.load environment).1.exitCode.val := by
  obtain ⟨w, hasked⟩ := exists_asked input environment
  obtain ⟨q, hprogram, hrefused⟩ := program_refused (hasked.answer hline) he
  rw [outcome_of_error logger hprogram, ← hasked.configured, ← hasked.written]
  exact ⟨hrefused.stdout Stdout.contents hasked.working, rfl⟩

theorem outcome_accepted {text : String} {n : Int32}
    (hline : firstLine input = .ok (encode text)) (hn : Literal.parse (encode text) = .ok n) :
    (outcome logger (start input environment)).stdout =
        encode question ++ Fibonacci.lines n.toInt.toNat ∧
      (outcome logger (start input environment)).exitCode = 0 ∧
      (shortage ∈ (program { state := start input environment }).2.state.streams.log ↔
        47 < n.toInt) := by
  obtain ⟨w, hasked⟩ := exists_asked input environment
  obtain ⟨log, hprogram, hlog⟩ := program_accepted (hasked.answer hline) hn hasked.working
  obtain ⟨reasons, hreasons⟩ := hasked.log
  rw [outcome_of_ok logger hprogram, hprogram, ← hasked.written]
  refine ⟨rfl, rfl, ?_⟩
  have hcount : Fibonacci.count < n.toInt.toNat ↔ 47 < n.toInt := by
    rw [Fibonacci.count]
    omega
  have hbefore : shortage ∉ w.state.streams.log := by
    rw [hreasons]
    simp [shortage]
  have hinfo (text : String) : shortage ≠ .message .info "pyio_fib" text := by
    simp [shortage]
  show shortage ∈ log ↔ _
  rw [hlog, ← hcount, List.mem_append, List.mem_cons]
  by_cases hlt : Fibonacci.count < n.toInt.toNat
  · rw [if_pos hlt]
    exact iff_of_true (Or.inr (Or.inr List.mem_cons_self)) hlt
  · rw [if_neg hlt]
    refine iff_of_false ?_ hlt
    rintro (h | h | h)
    · exact hbefore h
    · exact hinfo _ h
    · cases h

/-- The program prints the Fibonacci numbers that its first line asks for, as far as there are
any, and warns if they are fewer. It prints none if that line is no number, and then it ends
with the code that the settings give, or with 2 if there is no line that is a text. -/
theorem run_outcome :
    ((∀ text, firstLine input ≠ .ok (encode text)) →
      (outcome logger (start input environment)).stdout = encode question ∧
      (outcome logger (start input environment)).exitCode = 2) ∧
    (∀ text e, firstLine input = .ok (encode text) → Literal.parse (encode text) = .error e →
      (outcome logger (start input environment)).stdout = encode question ++
        (if (Settings.load environment).1.stream = .stdout then lineOf e.message else []) ∧
      (outcome logger (start input environment)).exitCode = (Settings.load environment).1.exitCode.val) ∧
    (∀ text n, firstLine input = .ok (encode text) → Literal.parse (encode text) = .ok n →
      (outcome logger (start input environment)).stdout = encode question ++
        (List.range (min n.toInt.toNat 47)).flatMap (fun i => lineOf (Nat.repr (Nat.fib i))) ∧
      (outcome logger (start input environment)).exitCode = 0 ∧
      (shortage ∈ (program { state := start input environment }).2.state.streams.log ↔
        47 < n.toInt)) ∧
    (∀ k, Nat.fib k < 2 ^ 31 ↔ k ≤ 46) ∧
    ∀ f f' value, Fibonacci.Reached f → f.next? = some (value, f') →
      f'.following.toInt = f.current.toInt + f.following.toInt := by
  refine ⟨outcome_no_text logger input environment, ?_, ?_, ?_, ?_⟩
  · exact fun text e => outcome_refused logger input environment
  · exact fun text n => outcome_accepted logger input environment
  · exact fun k => (Fibonacci.fib_lt_iff k).trans Nat.lt_succ_iff
  · exact fun f f' value => Fibonacci.Reached.following

/-- An input that fails behind its first byte, a number with a sign, and a number that is asked
for in two parts and is one more than there are. -/
theorem run_on_inputs :
    let failing : Script := ⟨[.data [0x35], .failure "gone"], .endOfStream⟩
    let signed : Script := ⟨[.data [0x2B, 0x35, 0x0A]], .endOfStream⟩
    let many : Script := ⟨[.data [0x34], .interrupted, .data [0x38, 0x0A]], .endOfStream⟩
    let environment : Environment
      | .exitCode => some " 7 "
      | .diagnosticStream => some "stderr"
    (run none (start failing environment)).exitCode = 2 ∧
      (run none (start signed environment)).exitCode = 7 ∧
      (run none (start signed environment)).stdout = encode question ∧
      (run none (start many environment)).exitCode = 0 ∧
      shortage ∈ (program { state := start many environment }).2.state.streams.log := by
  intro failing signed many environment
  obtain ⟨hno, -, -, -, -⟩ := run_outcome (Threshold.logger none) failing environment
  obtain ⟨-, hrefused, -, -, -⟩ := run_outcome (Threshold.logger none) signed environment
  obtain ⟨-, -, haccepted, -, -⟩ := run_outcome (Threshold.logger none) many environment
  have hfailing : firstLine failing = .error .readFailed := by decide
  have hsigned : firstLine signed = .ok (encode "+5") := by decide
  have hmany : firstLine many = .ok (encode "48") := by decide
  obtain ⟨hstdout, hexit⟩ := hrefused "+5" ⟨.invalidDigit, encode "+5"⟩ hsigned rfl
  obtain ⟨-, hdone, hwarned⟩ := haccepted "48" 48 hmany rfl
  refine ⟨(hno ?_).2, hexit, hstdout, hdone, hwarned.mpr (by decide)⟩
  intro text
  rw [hfailing]
  exact nofun

end LineConsole.Demo
